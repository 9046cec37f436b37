import Dsl41.Oracle.Guards

/-!
# The moments

The steps of a cascade's walks. `View.moment` resumes a walk: it gives the items the walk sends
next with where it waits for their cascades, or nothing when the walk is over. A walk reads the
view when it resumes and writes nothing.
-/

namespace Dsl41.Oracle

open Dsl41.Infra Dsl41.Store
open Dsl41.StateMachine (Name)

/-! ## Items -/

/-- An item one action sends. -/
abbrev Send := Key × StateMachine.Event Payload

/-- `Step`: the items of one step and the intents its hook performs. -/
structure Step where
  send : List Send := []
  intents : List Intent := []

/-- `_to`. -/
def sendTo (job : String) (name : Name) (payload : Payload) : Send := (.job job, { name, payload })

/-- `_program`. -/
def program (job : String) (name : Name) (moment : Moment) : Send :=
  sendTo job name (.program moment)

/-- `_once`. -/
def once (job : String) (name : Name) (moment : Moment) : Send := sendTo job name (.once moment)

/-- `_scan`: every sender inside a cascade asks a full scan. -/
def fullScan : Send := (.scan, { name := SCAN, payload := .scan false })

/-- The start of a job, asked by the cascade. -/
def startItem (attempt : StartFacts) : Send := sendTo attempt.job START (.start attempt)

/-- `_door`. -/
def visit (facts : DoorFacts) : Send := sendTo facts.box MEMBER_MOVES (.door facts)

/-- A box's moment on one of its jobs. -/
def ruleItem (name : Name) (rule : Rule) : Send := sendTo rule.job name (.rule rule)

/-- A step of items and where the walk waits after it. -/
def sends (send : List Send) (next : Moment) : Option (Step × Moment) := some ({ send }, next)

/-- A step of items, when there are any. -/
def sendsSome (send : List Send) (next : Moment) : Option (Step × Moment) :=
  if send.isEmpty then none else sends send next

/-- `_reads_overrides`. -/
def readsOverrides (new : JobStatus) (resolved : Bool) : Bool :=
  new.terminal || new = .running || resolved

/-- `_recomputes`. -/
def rederives (status new : JobStatus) : Bool := !status.live && new.terminal

/-- The run some runs name for a box is still its run, and the box is RUNNING. -/
def View.stillInRun (v : View) (runs : Runs) (box : String) : Bool :=
  (runs.lookup box).any (v.inRun box)

namespace View

variable (v : View)

/-! ## A move's box rules -/

/-- The ends of the arms of the members of some boxes. -/
def disarms (boxes : List String) : List Send :=
  boxes.flatMap fun box => (v.members box).map fun job => ruleItem BOX_RUN_ENDS { job, box }

/-- The end of `_box_rules`: a terminal box ends its members' arms. -/
def afterHeld (r : Ruling) : Option (Step × Moment) :=
  if v.isBox r.job && r.new.terminal then sendsSome (v.disarms [r.job]) .done else none

/-- `_box_rules` after the walk up: the holders' check. -/
def afterWalk (r : Ruling) : Option (Step × Moment) :=
  if liveOrQueued r.old && !liveOrQueued r.new && 1 < (v.ancestorBoxes r.job).length then
    let chain := v.ancestorBoxes r.job
    sends [program r.job HOLDERS (.holders r.runs none (chain.zip chain.tail))] (.held r)
  else v.afterHeld r

/-- `_box_rules` after the member rules: the walk up. -/
def afterRules (r : Ruling) : Option (Step × Moment) :=
  if 1 < (v.ancestorBoxes r.job).length then
    let resolved := (v.boxOf r.job).any fun box => v.resolves box r.job r.old r.new
    let walk : Walk :=
      { member := r.job, new := r.new, resolved, runs := r.runs, visited := none
        rest := (v.ancestorBoxes r.job).tail }
    sends [program r.job WALK_UP (.walkUp walk)] (.walked r)
  else v.afterWalk r

/-- `_member_rules` after a terminator: the door of a running box, the recompute of an idle one. -/
def doorRules (box : String) (r : Ruling) (status : JobStatus) : Option (Step × Moment) :=
  if status = .terminated then v.afterRules r
  else
    let resolved := v.resolves box r.job r.old r.new
    if status = .running then
      let overrides := readsOverrides r.new resolved
      sends [visit { box, member := some r.job, new := some r.new, overrides, folds := true
                     completion := resolved }] (.memberRuled r)
    else if rederives status r.new then
      let cause := "member " ++ quoted r.job ++ " changed"
      sends [sendTo box BOX_RECOMPUTE (.recompute { box, trigger := r.job, cause })] (.memberRuled r)
    else v.afterRules r

/-- `_member_rules`. -/
def memberRules (box : String) (r : Ruling) : Option (Step × Moment) :=
  let status := v.status box
  if failed r.new then
    let fires := v.boxTerminatorFires r.job r.new
    sends [sendTo box MEMBER_ENDS (.memberEnd { box, member := r.job, new := r.new, fires })]
      (.memberEnded r status fires)
  else v.doorRules box r status

/-- `_member_rules` after the terminator's item: the end of a running box ends the rules. -/
def memberEnded (r : Ruling) (status : JobStatus) (fires : Bool) : Option (Step × Moment) :=
  match v.boxOf r.job with
  | some box => if fires && status = .running then v.afterRules r else v.doorRules box r status
  | none => v.afterRules r

/-- The job and the statuses of a move. -/
def movedOf : Moved → Option (String × JobStatus × JobStatus)
  | .record id => (v.cascade.moves[id]?).map fun m => (m.job, m.old, m.new)
  | .notice job old new => some (job, old, new)

/-- `_box_rules`. -/
def boxRules (moved : Moved) (runs : Option Runs) : Option (Step × Moment) :=
  match v.movedOf moved with
  | none => none
  | some (job, old, new) =>
    let r : Ruling := { job, old, new, runs := runs.getD (v.ancestorRuns job) }
    match v.ir? job with
    | none => none
    | some ir =>
      match ir.box.boxName with
      | some box => v.memberRules box r
      | none => v.afterHeld r

/-! ## The walk up and the holders -/

/-- The next box of the walk that is still in its run. -/
def walkFrom (walk : Walk) : List String → Option (Step × Walk)
  | [] => none
  | box :: rest =>
    if v.stillInRun walk.runs box && readsOverrides walk.new walk.resolved then
      some ({ send := [visit { box, member := some walk.member, new := some walk.new
                               overrides := true, folds := false, completion := walk.resolved }] },
        { walk with visited := some box, rest })
    else walkFrom walk rest

/-- `_walk_up`: it ends at a box that ended. -/
def walkUp (walk : Walk) : Option (Step × Walk) :=
  if walk.visited.all (v.stillInRun walk.runs) then v.walkFrom walk walk.rest else none

/-- The walk up a resolved ice makes. -/
def resolvedWalk (job : String) (status : JobStatus) (runs : Runs) : Walk :=
  { member := job, new := status, resolved := true, runs, visited := none
    rest := (v.ancestorBoxes job).tail }

/-- An iced member out of its running box's run. -/
def outOfRunningBox (box job : String) : Bool :=
  let row := v.row box
  row.status = .running &&
    !(job ∈ row.ranMembers || job ∈ row.windowSkippedMembers || job ∈ row.icedOutMembers) &&
    v.outOfTheRun job

/-- `_ice_resolves`. -/
def iceResolves : IceStage → Option (Step × IceStage)
  | .start job status runs =>
    match v.boxOf job with
    | none => none
    | some box =>
      if v.outOfRunningBox box job then
        some ({ send := [visit { box, member := some job, new := some status, overrides := true
                                 folds := true, completion := true }] },
          .opened job box status runs)
      else none
  | .opened job box status runs =>
    if v.stillInRun runs box then
      (v.walkUp (v.resolvedWalk job status runs)).map fun (step, walk) => (step, .walking walk)
    else none
  | .walking walk => (v.walkUp walk).map fun (step, walk) => (step, .walking walk)

/-- The next holder whose parent is still in its run and that resolves. -/
def holdersFrom (runs : Runs) : List (String × String) → Option (Step × Moment)
  | [] => none
  | (holder, parent) :: rest =>
    if runs.lookup parent = some (v.row parent).runNumber then
      match v.iceResolves (.start holder (v.status holder) runs) with
      | some (step, stage) => some (step, .holders runs (some stage) rest)
      | none => holdersFrom runs rest
    else holdersFrom runs rest

/-- `_holders`. -/
def holders (runs : Runs) (visit : Option IceStage) (rest : List (String × String)) :
    Option (Step × Moment) :=
  match visit.bind v.iceResolves with
  | some (step, stage) => some (step, .holders runs (some stage) rest)
  | none => v.holdersFrom runs rest

/-! ## Settlements and wakes -/

/-- `_settle`. -/
def settle (id : MoveId) : Option (Step × Moment) :=
  match v.cascade.moves[id]? with
  | none => none
  | some move =>
    if !move.done && move.releasing && (v.row move.job).runNumber = move.run then
      sends [sendTo move.job LEAVE_LIVE
        (.settlement { job := move.job, success := move.new = .success, move := some id })] .done
    else none

/-- `_wakes`: each referencer's attempt, then the queue's scan. -/
def wakes (job cause : String) (queue : Bool) : Option (Step × Moment) :=
  sendsSome ((v.referencers job).map (fun name => startItem { job := name, cause }) ++
    if queue then [fullScan] else []) .done

/-- `_wake`. -/
def wake (job : String) (new : JobStatus) (queue : Bool) : Moment :=
  .wakes job ("status of " ++ quoted job ++ " changed to " ++ statusName new) queue

/-- `_wake_after`. -/
def wakeAfter (id : MoveId) : Option (Step × Moment) :=
  match v.cascade.moves[id]? with
  | none => none
  | some move =>
    v.wakes move.job
      ("status of " ++ quoted move.job ++ " changed to " ++ statusName move.new)
      (move.released || liftsABlock move.old move.new)

/-! ## The ends of boxes -/

/-- `_still_the_run`. -/
def stillTheRun (box : String) (run : Int) : Bool :=
  (v.row box).runNumber = run && (v.row box).status ≠ .inactive

/-- The members of `_box_ends`, one at a time. -/
def boxEnding (box : String) (run : Int) : List String → Option (Step × Moment)
  | [] => none
  | job :: rest =>
    if v.stillTheRun box run then
      sends [ruleItem BOX_ENDS { job, box }] (.boxEnding box run rest)
    else none

/-- `_box_ends`. -/
def boxEnds (box : String) : Option Int → Option (Step × Moment)
  | some run => v.boxEnding box run (v.members box)
  | none =>
    if failed (v.status box) then v.boxEnding box (v.row box).runNumber (v.members box) else none

/-! ## The batch INACTIVE path -/

/-- The recorded moves of a batch. -/
def batchMoves (batch : BatchId) : List (MoveId × Move) :=
  ((v.cascade.batches[batch]?).elim [] (·.rows)).filterMap fun id =>
    (v.cascade.moves[id]?).map fun m => (id, m)

/-- The ancestors' runs of each row of a batch. -/
def batchRuns (batch : BatchId) : List (String × Runs) :=
  (v.batchMoves batch).map fun (_, m) => (m.job, v.ancestorRuns m.job)

/-- `_notices`. -/
def notices (runs : List (String × Runs)) : Bool → List MoveId → Option (Step × Moment)
  | owed, [] => if owed then sends [fullScan] .done else none
  | owed, id :: rest =>
    match v.cascade.moves[id]? with
    | none => notices runs owed rest
    | some move =>
      let queue := move.released || liftsABlock move.old .inactive
      if v.status move.job ≠ .inactive || (v.row move.job).runNumber ≠ move.run then
        notices runs (owed || queue) rest
      else
        let rules := Moment.boxRules (.notice move.job move.old .inactive)
          (some ((runs.lookup move.job).getD []))
        sends [program move.job BOX_RULES rules, once move.job WAKE (wake move.job .inactive queue)]
          (.notices runs owed rest)

/-- `_notify`: a box set INACTIVE after its first phase. -/
def notify (batch : BatchId) : Option (Step × Moment) :=
  let rows := v.batchMoves batch
  let runs := v.batchRuns batch
  let box := (v.cascade.batches[batch]?).elim "" (·.box)
  let boxes := box :: (rows.tail.map fun (_, m) => m.job).filter v.isBox
  let ends := v.disarms boxes
  if ends.isEmpty then v.notices runs false (rows.map (·.1))
  else sends ends (.notices runs false (rows.map (·.1)))

/-! ## After an operator's input -/

/-- `_parent_recomputes`. -/
def parentRecomputes (box : String) (status : JobStatus) (run : Int) : Bool :=
  let settled : List JobStatus := [.running, .starting, .terminated]
  status ∉ settled && v.status box ∉ settled && (v.row box).runNumber = run

/-- `_inject_tail`. -/
def injectTail (job box : String) (status : JobStatus) (run : Int) : Option (Step × Moment) :=
  if v.parentRecomputes box status run then
    let cause := "member " ++ quoted job ++ " set INACTIVE"
    sends [sendTo box BOX_RECOMPUTE (.recompute { box, trigger := job, cause })] .done
  else none

/-- `_leave_tail`: a window failure takes its window decision, a tickless day failure waits for its
next eligible opening. -/
def leaveTail (job check cause : String) (run : Int) (boxRun : Option Int) :
    Option (Step × Moment) :=
  let row := v.row job
  if row.status ≠ .inactive || row.runNumber ≠ run then none
  else if (v.boxOf job).any fun box =>
      v.status box ≠ .running || some (v.row box).runNumber ≠ boxRun then none
  else if check = "window" then sends [startItem { job, cause, decided := true }] .done
  else if check = "day" && !v.hasTicks job then
    some ({ intents := [.deferToOpening job cause] }, .done)
  else none

/-- `_retries`. -/
def retries (runs : Runs) : List String → Option (Step × Moment)
  | [] => none
  | job :: rest =>
    if runs.lookup job = some (v.row job).runNumber then
      sends [startItem { job, cause := "ON_NOEXEC (DL-254)" }] (.retries rest runs)
    else retries runs rest

/-! ## The window pass -/

/-- The members of the box runs still waiting for their windows. -/
def windowWaiting (starts : BoxStarts) : List (String × Int × String × String) :=
  starts.flatMap fun (box, run, cause) =>
    if v.inRun box run then
      ((v.members box).filter (v.waitingForWindow box)).map fun member => (box, run, member, cause)
    else []

/-- The decisions of the pass: deferrals before skips. -/
def windowDecisions (starts : BoxStarts) : Option (List (String × Int × String × String)) := do
  let sided ← (v.windowWaiting starts).mapM fun d =>
    (v.windowSide d.2.2.1).map fun side => (side.1, d)
  let on (side : WindowSide) := (sided.filter (·.1 = side)).map (·.2)
  return on .defer ++ on .skip

/-- The box runs that left no member in the run. -/
def doors : BoxStarts → Option (Step × Moment)
  | [] => none
  | (box, run, _) :: rest =>
    if v.inRun box run && (v.members box).all v.outOfTheRun then
      sends [visit { box, member := none, new := none, overrides := true, folds := true
                     completion := true, atStart := true }] (.doors rest)
    else doors rest

/-- The decided attempts, each while its box run lasts. -/
def attempts (starts : BoxStarts) :
    List (String × Int × String × String) → Option (Step × Moment)
  | [] => if v.semantics.boxStartAllMembersOut = .complete then v.doors starts else none
  | (box, run, job, cause) :: rest =>
    if v.inRun box run then
      sends [startItem { job, cause, decided := true }] (.attempts starts rest)
    else attempts starts rest

/-- `_window_pass`: the box start that opened the pass runs it. -/
def windowPass (box : String) (run : Int) (cause : String) (owner : Bool) : Step × Moment :=
  if owner then
    ({ intents := [.closePass] },
      .passClosed (v.cascade.windowStarts.getD [] ++ [(box, run, cause)]))
  else ({ intents := [.register box run cause] }, .done)

/-! ## Resuming a walk -/

/-- The next step of a walk, and where it waits then. -/
def moment : Moment → Except OracleError (Option (Step × Moment))
  | .boxRules moved runs => .ok (v.boxRules moved runs)
  | .memberEnded r status fires => .ok (v.memberEnded r status fires)
  | .memberRuled r => .ok (v.afterRules r)
  | .walked r => .ok (v.afterWalk r)
  | .held r => .ok (v.afterHeld r)
  | .walkUp walk => .ok ((v.walkUp walk).map fun (step, walk) => (step, .walkUp walk))
  | .holders runs visit rest => .ok (v.holders runs visit rest)
  | .iceResolves stage =>
    .ok ((v.iceResolves stage).map fun (step, stage) => (step, .iceResolves stage))
  | .settle id => .ok (v.settle id)
  | .wakeAfter id => .ok (v.wakeAfter id)
  | .wakes job cause queue => .ok (v.wakes job cause queue)
  | .boxEnds box run => .ok (v.boxEnds box run)
  | .boxEnding box run rest => .ok (v.boxEnding box run rest)
  | .notify batch => .ok (v.notify batch)
  | .notices runs owed rest => .ok (v.notices runs owed rest)
  | .injectTail job box status run => .ok (v.injectTail job box status run)
  | .leaveTail job check cause run boxRun => .ok (v.leaveTail job check cause run boxRun)
  | .loadTaken => .ok (some ({ intents := [.scanState true] }, .done))
  | .noexecTail job tree released runs =>
    .ok (some ({ intents := [.clearCodes tree] }, .noexecMoved job released runs))
  | .noexecMoved job released runs =>
    .ok (sends [sendTo job NOEXEC_MOVED (.noexec job)] (.retries released runs))
  | .retries released runs => .ok (v.retries runs released)
  | .windowPass box run cause owner => .ok (some (v.windowPass box run cause owner))
  | .passClosed starts =>
    match v.windowDecisions starts with
    | some decisions => .ok (v.attempts starts decisions)
    | none => .error (.clock "")
  | .attempts starts rest => .ok (v.attempts starts rest)
  | .doors rest => .ok (v.doors rest)
  | .done => .ok none

end View

end Dsl41.Oracle
