import Dsl41.Oracle.Reads

/-!
# The reads of the clock, and the timers

The side of a run window, the queued recheck, a deferred start and its staleness, the deadlines a
tick arms. A read that raises gives none.
-/

namespace Dsl41.Oracle

open Dsl41.Infra Dsl41.Store

def minute : Int := 60000000

/-- The kinds of deadline a tick arms. -/
inductive SlaCheck where
  | mustStart | mustComplete
deriving DecidableEq, Repr

def SlaCheck.name : SlaCheck → String
  | mustStart => "must_start"
  | mustComplete => "must_complete"

def SlaCheck.spec (check : SlaCheck) (schedule : ScheduleBlock) : Option SlaSpec :=
  match check with
  | mustStart => schedule.mustStart
  | mustComplete => schedule.mustComplete

/-- `_slot_run_completed`. -/
def slotRunCompleted (row : JobFields Instant) (tickRun : Option Int) : Bool :=
  tickRun.any fun run =>
    run + 1 < row.runNumber || (row.runNumber = run + 1 && !row.status.live)

namespace View

variable (v : View)

/-! ## Run windows -/

/-- `_window_side`. -/
def windowSide (job : String) : Option (WindowSide × Option Instant) :=
  match (v.ir? job).bind (·.schedule) with
  | none => some (.inside, none)
  | some schedule =>
    if schedule.runWindow = none then some (.inside, none)
    else v.now.bind fun now => v.clock.windowSide schedule now

/-- `_waiting_for_window`. -/
def waitingForWindow (box member : String) : Bool :=
  let row := v.row member
  let boxRow := v.row box
  ((v.ir? member).bind JobIR.runWindow).isSome &&
    !(row.onIce || row.onHold || liveOrQueued row.status || member ∈ boxRow.ranMembers ||
      member ∈ boxRow.windowSkippedMembers)

/-- `_is_run_day`. -/
def isRunDay (schedule : ScheduleBlock) (now : Instant) : Option Bool :=
  match schedule.runCalendar with
  | some calendar => v.clock.calendarHas schedule calendar now
  | none =>
    match schedule.daysOfWeek with
    | none => some true
    | some days =>
      if "all" ∈ days then some true
      else (v.clock.weekday schedule now).map fun token => decide (token ∈ days)

/-- The recheck of a schedule: the exclusion, the run day under mode 2, the window. -/
def scheduleRecheck (job : String) (schedule : ScheduleBlock) (now : Instant) :
    Option (Option (String × String)) := do
  let today ← v.clock.today schedule now
  let excluded ← match schedule.excludeCalendar with
    | none => some false
    | some calendar => v.clock.calendarHas schedule calendar now
  if excluded then
    return some ("day", today ++ " is in exclude_calendar " ++ quotedOption schedule.excludeCalendar)
  let runDay ← if v.semantics.queuedRecheck = .day then v.isRunDay schedule now else some true
  if !runDay then return some ("day", today ++ " is not a run day")
  let (side, _) ← v.windowSide job
  if side ≠ .inside then return some ("window", "outside run_window")
  return none

/-- `_queued_recheck`: the failed check and its reason. -/
def queuedRecheck (job : String) : Option (Option (String × String)) :=
  if v.semantics.queuedRecheck = .nothing then some none
  else do
    let found ← match (v.ir? job).bind (·.schedule) with
      | none => some none
      | some schedule => v.now.bind fun now => v.scheduleRecheck job schedule now
    match found, (v.ir? job).bind (·.sem.condition) with
    | some why, _ => return some why
    | none, some c => return if v.condTrue c job then none else some ("condition", "condition false")
    | none, none => return none

/-- `_has_ticks`. -/
def hasTicks (job : String) : Bool :=
  ((v.ir? job).bind (·.schedule)).any fun s =>
    s.startTimes.any (· ≠ []) || s.startMins.any (· ≠ []) || s.runCalendar.any (· ≠ "")

/-! ## Deferred starts -/

/-- The payload of a deferred start; a member's carries its box's run. -/
def deferral (job cause : String) (rescanRun : Option Int) : Dict String (Value Scalar) :=
  let payload : Dict String (Value Scalar) :=
    ((∅ : Dict String (Value Scalar)).set "job" (.text job)).set "deferred_cause" (.text cause)
  let payload := match rescanRun with
    | some run => payload.set "rescan_run" (.other (.int run))
    | none => payload
  match v.boxOf job with
  | some box =>
    (payload.set "box" (.text box)).set "box_run" (.other (.int (v.row box).runNumber))
  | none => payload

/-- A deferred start of the same job, box run and scan is pending at an instant. -/
def deferralPending (job : String) (nextOpen : Instant) (payload : Dict String (Value Scalar)) :
    Bool :=
  v.timers.entries.any fun t =>
    t.due = nextOpen && t.event.kind = .timer && (t.event.payload.get? "deferred_cause").isSome &&
      t.event.payload.get? "job" = some (.text job) &&
      ["box", "box_run", "rescan_run"].all fun key =>
        t.event.payload.get? key = payload.get? key

/-- `_deferral_is_stale`: why a deferred start does not belong to its job's box run. -/
def deferralIsStale (job : String) (payload : Dict String (Value Scalar)) : Option String :=
  let current := v.boxOf job
  let origin := asText (payload.get? "box")
  let boxRun := asInt (payload.get? "box_run")
  if origin ≠ current then
    some ("deferred start was queued in box " ++ quotedOption origin ++
      ", and the job is now in box " ++ quotedOption current ++ " -- no effect (SEM-33, DL-246)")
  else
    match current with
    | none => none
    | some box =>
      if some (v.row box).runNumber = boxRun then none
      else some ("deferred start belongs to box " ++ quoted box ++ " run " ++
        textOf (payload.get? "box_run") ++
        ", and the box has started again since -- no effect (SEM-33, DL-246)")

/-- `_rescan_superseded`. -/
def rescanSuperseded (job : String) (run : Option Int) : Bool :=
  (v.ir? job).isNone || some (v.row job).runNumber ≠ run

/-! ## Deadlines -/

/-- `_sla_offset`. -/
def slaOffset (schedule : ScheduleBlock) (offsets : List Int) (now : Instant) : Option Int :=
  match offsets with
  | [offset] => some offset
  | _ => do
    match ← v.clock.startSlot schedule now with
    | none => offsets.head?
    | some slot => offsets[slot]?

/-- `_absolute_deadline`. -/
def absoluteDeadline (schedule : ScheduleBlock) (times : List Time) (now : Instant) :
    Option (Option Instant) := do
  match ← v.clock.startSlot schedule now with
  | none => return none
  | some slot =>
    match times[slot]? with
    | none => return none
    | some must =>
      let due ← v.clock.mustInstant schedule slot must now
      return some (max due now)

/-- The instant of the deadline of the slot a tick names. -/
def deadlineAt (schedule : ScheduleBlock) (spec : SlaSpec) (now : Instant) :
    Option (Option Instant) :=
  match spec with
  | .relative [] => some none
  | .relative offsets => (v.slaOffset schedule offsets now).map fun m => some (now + m * minute)
  | .absolute times => v.absoluteDeadline schedule times now

/-- `_slot_deadline`. -/
def slotDeadline (job : String) (check : SlaCheck) : Option (Option Event) :=
  match (v.ir? job).bind (·.schedule), v.now with
  | some schedule, some now =>
    match check.spec schedule with
    | none => some none
    | some spec => do
      let deadline ← v.deadlineAt schedule spec now
      return deadline.map fun at_ =>
        { at_, kind := .timer,
          payload := (((∅ : Dict String (Value Scalar)).set "check" (.text check.name)).set "job"
            (.text job)).set "run" (.other (.int (v.row job).runNumber)) }
  | _, _ => some none

/-- `_pending_check`. -/
def pendingCheck (job : String) (check : SlaCheck) : Bool :=
  let row := v.row job
  v.timers.entries.any fun t =>
    let payload := t.event.payload
    let run := asInt (payload.get? "run")
    payload.get? "check" = some (.text check.name) && payload.get? "job" = some (.text job) &&
      match check with
      | .mustStart => run = some row.runNumber
      | .mustComplete => !slotRunCompleted row run

/-- `_tick_deadline`. -/
def tickDeadline (job : String) (check : SlaCheck) : Option (Option Event) := do
  match ← v.slotDeadline job check with
  | none => return none
  | some timer =>
    return if liveOrQueued (v.status job) || v.pendingCheck job check then none else some timer

end View

/-! ## Arming -/

/-- `_schedule_timer`. Every payload the oracle arms is of a registered shape. -/
def scheduleTimer (at_ : Instant) (ev : Event) : WorldM Unit := do
  match asText (ev.payload.get? "check") with
  | none =>
    if (ev.payload.get? "deferred_cause").isNone then
      throw (.oracle "unregistered timer shape (PR-09)")
  | some check =>
    if check ∉ ["must_start", "must_complete", "term_run_time"] then
      throw (.oracle ("unregistered timer check " ++ quoted check ++ " (PR-09)"))
  discard (onStore (RuntimeState.enqueueTimer at_ ev))

/-- The note of a deferral, when no other one is given. -/
def deferNote : String := "outside run_window; closer to next opening -- STARTJOB queued"

/-- `_defer_start`. -/
def deferStart (job : String) (nextOpen : Instant) (cause : String)
    (rescanRun : Option Int := none) (note : String := deferNote) : WorldM Unit := do
  let v := (← get).view
  let payload := v.deferral job cause rescanRun
  if v.deferralPending job nextOpen payload then return
  scheduleTimer nextOpen { at_ := nextOpen, kind := .timer, payload }
  record job "RUN_WINDOW_DEFER" (note ++ " (" ++ cause ++ ")")

/-- `_defer_to_next_opening`. -/
def deferToNextOpening (job cause : String) : WorldM Unit := do
  let v := (← get).view
  match (v.ir? job).bind (·.schedule) with
  | none => return
  | some schedule =>
    if schedule.runWindow = none then return
    match v.now.bind fun now => v.clock.nextOpening schedule now with
    | none => throw (.clock job)
    | some (.inl opening) => deferStart job opening cause
    | some (.inr (bound, last)) =>
      deferStart job bound cause (some (v.row job).runNumber)
        ("no eligible day through " ++ last ++ "; the scan for one resumes then")

/-- `_arm_term_run_time`. -/
def armTermRunTime (job : String) : WorldM Unit := do
  let v := (← get).view
  match (v.ir? job).bind (·.sem.termRunTimeMin), v.now with
  | some limit, some now =>
    -- zero means no limit
    if limit = 0 then return
    let deadline := now + limit * minute
    scheduleTimer deadline
      { at_ := deadline, kind := .timer,
        payload := (((∅ : Dict String (Value Scalar)).set "check" (.text "term_run_time")).set "job"
          (.text job)).set "run" (.other (.int ((v.row job).runNumber + 1))) }
  | _, _ => return

/-- `_dispatch_timer_check`: an alarm moves no state. -/
def dispatchTimerCheck (job : String) (check : String) (run : Option Int) : WorldM Unit := do
  let row := (← get).view.row job
  let about := (∅ : Dict String (Value Scalar)).set "job" (.text job)
  if check = "must_start" then
    if run = some row.runNumber then
      emit .mustStartAlarm about
      record job "MUST_START_ALARM" "must_start_times deadline (SEM-34)"
  else if check = "must_complete" then
    if !slotRunCompleted row run then
      emit .mustCompleteAlarm about
      record job "MUST_COMPLETE_ALARM" "must_complete_times deadline (SEM-34)"

end Dsl41.Oracle
