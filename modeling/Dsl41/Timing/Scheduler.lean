import Mathlib
import Dsl41.Infra.Effect
import Dsl41.Timing.Plan

/-!
# The scheduler

Four maps: the plans, each job's next tick, its last consumed one, and what an update left owed of
an old plan. `popDue` consumes the ticks due at an instant; `replace` follows an update.
-/

namespace Dsl41.Timing

open Infra

/-- The switches; those the scheduler compares and hands on stay as texts. -/
structure SemanticSwitches where
  dst_start_times : DstStartTimes := .vendor
  others : List (String × String) := []
deriving DecidableEq

structure ScheduleBlock where
  days_of_week : Option (List String) := none
  run_calendar : Option String := none
  exclude_calendar : Option String := none
  start_times : Option (List Clock) := none
  start_mins : Option (List Nat) := none
  timezone : Option String := none

/-- A calendar: each day's row times, or a compiled extended one. -/
inductive CalendarSource
  | standard (rows : Dict Day (List Clock))
  | extended (cal : CompiledCalendar)

/-- The jobs' schedules and what the calendars compile to; a rule may be refused for a reason. -/
structure Catalog where
  jobs : Dict String (Option ScheduleBlock)
  calendar : String → SemanticSwitches → Option (Except String CalendarSource)
  hash : String

/-- The settings the plans are compiled under. -/
structure Settings where
  default_tz : Option String := none
  tz_aliases : Option (Finset (String × String)) := none
  semantics : SemanticSwitches := {}
deriving DecidableEq

variable {Z : Zones}

/-! ## Compiling a plan -/

def clockLe (a b : Clock) : Bool := a.1 < b.1 ∨ a.1 = b.1 ∧ a.2 ≤ b.2

/-- A calendar reference read from the catalog. -/
def schedulerCalendar (catalog : Catalog) (job role ref : String) (semantics : SemanticSwitches) :
    Except EngineError CalendarSource :=
  match catalog.calendar ref semantics with
  | none => .error (.noDefinition job role ref)
  | some (.error reason) => .error (.calendar reason)
  | some (.ok source) => .ok source

def schedulerTz (name owner : String) (aliases : Option (Finset (String × String))) :
    Except EngineError Z.Zone :=
  match Z.resolve_timezone name aliases with
  | none => .error (.timezone owner name)
  | some zone => .ok zone

/-- The zone plans without their own read; an empty name is none. -/
def baseTz (settings : Settings) : Except EngineError (Option Z.Zone) :=
  match settings.default_tz with
  | none | some "" => .ok none
  | some name => some <$> schedulerTz name "--timezone" settings.tz_aliases

def ScheduleBlock.ticks (sched : ScheduleBlock) : List Clock :=
  match sched.start_times with
  | some (time :: times) => (time :: times).mergeSort clockLe
  | _ => ((List.range 24).flatMap fun h => (sched.start_mins.getD []).map fun m => (h, m)).mergeSort clockLe

/-- The latest of some days. -/
def latest (days : Finset Day) : Option Day := days.max

/-- One job's trigger; none for a job with nothing that ticks. -/
def compile (catalog : Catalog) (settings : Settings) (base_tz : Option Z.Zone) (name : String) :
    Except EngineError (Option (SchedulePlan Z)) := do
  match (catalog.jobs.get? name).join with
  | none => return none
  | some sched =>
    let own_ticks := !(sched.start_times.getD []).isEmpty || !(sched.start_mins.getD []).isEmpty
    if !own_ticks && sched.run_calendar.isNone then return none
    let run ← sched.run_calendar.mapM fun ref =>
      schedulerCalendar catalog name "run_calendar" ref settings.semantics
    let exclude ← sched.exclude_calendar.mapM fun ref =>
      schedulerCalendar catalog name "exclude_calendar" ref settings.semantics
    if sched.days_of_week = some [] then throw (.emptyDays name)
    let run_dates := match run with
      | some (.standard rows) => some rows.keys.toFinset
      | _ => none
    let run_gen := match run with
      | some (.extended cal) => some cal
      | _ => none
    let exclude_dates := match exclude with
      | some (.standard rows) => rows.keys.toFinset
      | _ => ∅
    let explicit := latest (run_dates.getD ∅ ∪ exclude_dates)
    let bound := run_gen.bind CompiledCalendar.bound
    let tz ← match sched.timezone with
      | none | some "" => pure base_tz
      | some zone => some <$> schedulerTz zone name settings.tz_aliases
    return some {
      days := match sched.days_of_week with
        | none => DAY_CODES
        | some days => if "all" ∈ days then DAY_CODES else days
      times := if own_ticks then sched.ticks else [(0, 0)]
      tz
      source := if !(sched.start_times.getD []).isEmpty then .start_times
        else if own_ticks then .start_mins else .calendar
      dst_start_times := settings.semantics.dst_start_times
      run_dates, exclude_dates, run_gen
      exclude_gen := match exclude with
        | some (.extended cal) => some cal
        | _ => none
      last_date := match explicit, bound with
        | some last, some bound => some (max last bound)
        | none, some bound => some bound
        | last, none => last
      row_times := match run with
        | some (.standard rows) => if own_ticks then none else some rows
        | _ => none }

/-! ## The maps -/

variable (Z) in
structure Scheduler where
  settings : Settings
  catalog_hash : String
  plans : Dict String (SchedulePlan Z)
  next : Dict String Instant
  consumed : Dict String Instant
  /-- Per rebuilt job, the old plan's owed ticks in order and where its new plan starts. -/
  owed : Dict String (List Instant × Instant × Bool)

namespace Scheduler

variable (s : Scheduler Z)

/-- The job's tick after one: an owed one of its old plan, else its plan's own, from where the new
plan starts. -/
def following (job : String) (tick : Instant) : Except EngineError (Option Instant) :=
  match s.owed.get? job with
  | none =>
    match s.plans.get? job with
    | none => .error .assertion
    | some plan => plan.occurrence tick false
  | some (backlog, start, inclusive) =>
    match backlog.filter fun owed => decide (tick < owed) with
    | later :: _ => .ok (some later)
    | [] =>
      match s.plans.get? job with
      | none => .ok none
      | some plan =>
        if tick < start then plan.occurrence start inclusive else plan.occurrence tick false

/-- The job's ticks up to an instant, and the one after them; every turn moves to a later tick. -/
def walk (job : String) (upto : Instant) :
    Nat → Option Instant → Except EngineError (List Instant × Option Instant)
  | _, none => .ok ([], none)
  | 0, some tick => .ok ([], some tick)
  | n + 1, some tick =>
    if tick ≤ upto then do
      let following ← s.following job tick
      let (ticks, rest) ← walk job upto n following
      return (tick :: ticks, rest)
    else .ok ([], some tick)

/-- As many turns as there are instants from a tick to the last. -/
def turns (upto : Instant) (tick : Option Instant) : Nat :=
  match tick with
  | none => 0
  | some tick => (upto - tick + 1).toNat

/-- The job's pending ticks at or before an instant, in order, and the one after them. -/
def pendingUntil (job : String) (upto : Instant) : Except EngineError (List Instant × Option Instant) :=
  s.walk job upto (turns upto (s.next.get? job)) (s.next.get? job)

/-- The job's pending ticks at or before the instant. -/
def owedUntil (job : String) (now : Instant) : Except EngineError (List Instant) :=
  Prod.fst <$> s.pendingUntil job now

/-! ## Anchoring -/

/-- Each job's next tick at or after an instant. -/
def anchor (start : Instant) :
    List (String × SchedulePlan Z) → Except EngineError (List (String × Instant))
  | [] => .ok []
  | (job, plan) :: plans => do
    let first ← plan.occurrence start true
    let rest ← anchor start plans
    match first with
    | some tick => return (job, tick) :: rest
    | none => return rest

def setAll {υ : Type} (entries : List (String × υ)) : Dict String υ :=
  entries.foldl (fun held e => held.set e.1 e.2) ∅

def reset (start : Instant) : Except EngineError (Scheduler Z) := do
  let first ← anchor start s.plans.entries
  return { s with next := setAll first, owed := ∅ }

/-- The constructor. -/
def create (catalog : Catalog) (start : Instant) (settings : Settings) :
    Except EngineError (Scheduler Z) := do
  let base_tz ← baseTz settings
  let plans ← catalog.jobs.keys.mapM fun name => do
    return (name, ← compile catalog settings base_tz name)
  let held : Scheduler Z := {
    settings, catalog_hash := catalog.hash
    plans := setAll (plans.filterMap fun e => e.2.map fun plan => (e.1, plan))
    next := ∅, consumed := ∅, owed := ∅ }
  held.reset start

/-! ## An update -/

/-- What an update brings. -/
structure Update where
  catalog : Catalog
  added : List String
  changed : List String
  removed : List String
  now : Instant
  default_tz : Option String
  tz_aliases : Option (Finset (String × String))
  semantics : Option SemanticSwitches

def Update.settings (u : Update) : Settings where
  default_tz := u.default_tz
  tz_aliases := u.tz_aliases
  semantics := u.semantics.getD {}

/-- The jobs whose plans are rebuilt, each once and in order. -/
def Update.rebuilt (u : Update) : List String :=
  ((u.added ++ u.changed).toFinset).sort (· ≤ ·)

/-- The refusals that need no plan. -/
def Update.check (u : Update) : Except EngineError Unit := do
  if u.removed.any fun job => decide (job ∈ u.catalog.jobs.keys ∧ job ∉ u.added) then
    throw .removedInCatalog
  let missing := u.rebuilt.filter fun job => decide (job ∉ u.catalog.jobs.keys)
  if missing ≠ [] then throw (.notInCatalog missing)
  let kept := (u.catalog.jobs.keys.filter fun job => decide (job ∉ u.rebuilt)).mergeSort
  if u.settings ≠ s.settings ∧ kept ≠ [] then throw (.settingsMoved kept)

/-- The plans of an update: every one is compiled before any is replaced. -/
def Update.plans (u : Update) : Except EngineError (List (String × Option (SchedulePlan Z))) := do
  let base_tz ← baseTz u.settings
  u.rebuilt.mapM fun name => do
    return (name, ← compile u.catalog u.settings base_tz name)

/-- What the changed jobs still owe. -/
def Update.owed (u : Update) : Except EngineError (List (String × List Instant)) :=
  u.changed.mapM fun name => do
    return (name, ← s.owedUntil name u.now)

/-- A job's plan, next tick and owed ticks go. -/
def drop (job : String) : Scheduler Z :=
  { s with plans := s.plans.erase job, next := s.next.erase job, owed := s.owed.erase job }

/-- Where a new plan starts. -/
def startOf (job : String) (now : Instant) : Instant × Bool :=
  match s.consumed.get? job with
  | some seen => if now ≤ seen then (seen, false) else (now, true)
  | none => (now, true)

/-- One rebuilt job's plan and next tick. -/
def install (now : Instant) (owed : Dict String (List Instant)) (job : String)
    (plan : Option (SchedulePlan Z)) : Effect EngineError (Scheduler Z) Unit := do
  let start := (← get).startOf job now
  match plan with
  | some plan => modify fun s => { s with plans := s.plans.set job plan }
  | none => pure ()
  match (owed.get? job).getD [] with
  | first :: later =>
    modify fun s =>
      { s with owed := s.owed.set job (first :: later, start), next := s.next.set job first }
  | [] =>
    match plan with
    | none => pure ()
    | some plan =>
      match ← Effect.ofExcept (plan.occurrence start.1 start.2) with
      | some tick => modify fun s => { s with next := s.next.set job tick }
      | none => pure ()

def installAll (now : Instant) (owed : Dict String (List Instant)) :
    List (String × Option (SchedulePlan Z)) → Effect EngineError (Scheduler Z) Unit
  | [] => pure ()
  | (job, plan) :: plans => do
    install now owed job plan
    installAll now owed plans

/-- An update's selective replacement. -/
def replace (u : Update) : Effect EngineError (Scheduler Z) Unit := do
  let s ← get
  Effect.ofExcept (u.check s)
  let plans ← Effect.ofExcept u.plans
  let owed ← Effect.ofExcept (u.owed s)
  modify fun s => { s with settings := u.settings, catalog_hash := u.catalog.hash }
  modify fun s => (u.removed ++ u.rebuilt).foldl drop s
  installAll u.now (setAll owed) plans

/-! ## The due ticks -/

structure Event where
  at_utc : Instant
  kind : String
  job : String
deriving DecidableEq

def eventLe (a b : Instant × String) : Bool := a.1 < b.1 ∨ a.1 = b.1 ∧ a.2 ≤ b.2

/-- One job's ticks up to an instant are consumed; whether nothing comes after them. -/
def popOne (upto : Instant) (job : String) (tick : Instant) :
    Effect EngineError (Scheduler Z) (List Instant × Bool) := do
  let s ← get
  let (ticks, rest) ← Effect.ofExcept (s.walk job upto (turns upto (some tick)) (some tick))
  match ticks.getLast? with
  | none => pure ()
  | some last =>
    modify fun s => { s with consumed := s.consumed.set job last }
    -- every owed tick is consumed: the new plan runs on
    if (s.owed.get? job).any fun owed => owed.1.getLast?.any fun final => decide (final ≤ last) then
      modify fun s => { s with owed := s.owed.erase job }
  match rest with
  | none => return (ticks, true)
  | some tick =>
    modify fun s => { s with next := s.next.set job tick }
    return (ticks, false)

def popEach (upto : Instant) : List (String × Instant) →
    Effect EngineError (Scheduler Z) (List (Instant × String) × List String)
  | [] => pure ([], [])
  | (job, tick) :: jobs => do
    let (ticks, exhausted) ← popOne upto job tick
    let (due, ended) ← popEach upto jobs
    return (ticks.map (·, job) ++ due, if exhausted then job :: ended else ended)

/-- Consume every tick due at or before an instant: its events, by tick and job. -/
def popDue (upto : Instant) : Effect EngineError (Scheduler Z) (List Event) := do
  let (due, exhausted) ← popEach upto (← get).next.entries
  modify fun s => { s with next := exhausted.foldl (fun next job => next.erase job) s.next }
  return (due.mergeSort eventLe).map fun e => { at_utc := e.1, kind := "STARTJOB", job := e.2 }

end Scheduler

end Dsl41.Timing
