import Mathlib.Data.Finset.Sort
import Mathlib.Data.List.Sort
import Dsl41.Infra.Dict
import Dsl41.Infra.Result

/-!
# Trigger plans

One job's compiled trigger: the days it is eligible on, the times of a day and the zone they are
read in. `occurrence` is the next tick at or after an instant.
-/

namespace Dsl41.Timing

open Infra

/-- A naive UTC instant, in microseconds. -/
abbrev Instant := Int

/-- A calendar date, by its ordinal. -/
abbrev Day := Int

/-- A time of day: hour and minute. -/
abbrev Clock := Nat × Nat

/-- The `dst-start-times` switch. -/
inductive DstStartTimes
  | vendor | fold0
deriving DecidableEq

/-- Why the scheduler refuses. -/
inductive EngineError
  | calendar (reason : String)
  | noDefinition (job role ref : String)
  | timezone (owner name : String)
  | emptyDays (job : String)
  | removedInCatalog
  | notInCatalog (jobs : List String)
  | settingsMoved (jobs : List String)
  | noOccurrence
  | assertion

/-- The time zones: which names resolve under an alias map, and the conversions. -/
structure Zones where
  Zone : Type
  resolve_timezone : String → Option (Finset (String × String)) → Option Zone
  /-- The local date of an instant. -/
  localDate : Instant → Option Zone → Day
  to_utc : Day → Clock → Option Zone → Instant
  start_time_instants : Day → List Clock → Option Zone → DstStartTimes → List Instant
  start_mins_instants : Day → List Clock → Option Zone → DstStartTimes → List Instant

/-- An extended calendar, ready to generate the days of a span; it may refuse to. -/
structure CompiledCalendar where
  days_between : Day → Day → Except EngineError (Finset Day)
  bound : Option Day

/-- Membership, read in blocks of 366 days. -/
def CompiledCalendar.contains (cal : CompiledCalendar) (day : Day) : Except EngineError Bool := do
  let lo := day / 366 * 366
  let days ← cal.days_between lo (lo + 365)
  return day ∈ days

inductive TickSource
  | start_times | start_mins | calendar
deriving DecidableEq

def DAY_CODES : List String := ["mo", "tu", "we", "th", "fr", "sa", "su"]

/-- `date.weekday()`. -/
def weekday (day : Day) : Nat := ((day + 6) % 7).toNat

/-- The ceiling of a scan over an unbounded calendar. -/
def EXTENDED_SCAN_DAYS : Int := 60 * 366

variable (Z : Zones)

structure SchedulePlan where
  days : List String
  times : List Clock
  tz : Option Z.Zone
  source : TickSource := .calendar
  dst_start_times : DstStartTimes := .vendor
  run_dates : Option (Finset Day) := none
  exclude_dates : Finset Day := ∅
  run_gen : Option CompiledCalendar := none
  exclude_gen : Option CompiledCalendar := none
  last_date : Option Day := none
  /-- Each day's own times, for a calendar with no job-level ones. -/
  row_times : Option (Dict Day (List Clock)) := none

namespace SchedulePlan

variable {Z} (plan : SchedulePlan Z)

def dayEligible (day : Day) : Except EngineError Bool := do
  if day ∈ plan.exclude_dates then return false
  match plan.exclude_gen with
  | some cal => if ← cal.contains day then return false
  | none => pure ()
  match plan.run_dates, plan.run_gen with
  | some dates, _ => return day ∈ dates
  | none, some cal => cal.contains day
  | none, none => return (DAY_CODES[weekday day]?).any fun code => decide (code ∈ plan.days)

/-- The ticks of a local day as instants. -/
def utcTicksOn (day : Day) : List Instant :=
  match plan.source with
  | .start_times => Z.start_time_instants day plan.times plan.tz plan.dst_start_times
  | .start_mins => Z.start_mins_instants day plan.times plan.tz plan.dst_start_times
  | .calendar =>
    let times := match plan.row_times with
      | none => plan.times
      | some rows => (rows.get? day).getD []
    times.map fun time => Z.to_utc day time plan.tz

/-- How many days a scan from a date covers. -/
def span (anchor : Day) : Nat :=
  let weekly : Int := 371
  let explicit := match plan.last_date with
    | some last => max weekly (last - anchor + 8)
    | none => weekly
  let generated := match plan.run_gen with
    | some cal => if cal.bound = none then max explicit EXTENDED_SCAN_DAYS else explicit
    | none => explicit
  let excluded := match plan.exclude_gen with
    | some cal => max generated (match cal.bound with
      | none => EXTENDED_SCAN_DAYS
      | some bound => bound - anchor + 8)
    | none => generated
  excluded.toNat

/-- The first of a day's ticks after an instant, or at it. -/
def tickOn (day : Day) (t : Instant) (inclusive : Bool) : Option Instant :=
  ((plan.utcTicksOn day).insertionSort (· ≤ ·)).find? fun tick =>
    decide (t < tick ∨ inclusive = true ∧ tick = t)

/-- The scan from a date on. -/
def scan (t : Instant) (inclusive : Bool) : Nat → Day → Except EngineError (Option Instant)
  | 0, _ =>
    if plan.run_dates.isSome || plan.run_gen.isSome || plan.exclude_gen.isSome then .ok none
    else .error .noOccurrence
  | n + 1, day => do
    if ← plan.dayEligible day then
      match plan.tickOn day t inclusive with
      | some tick => return some tick
      | none => scan t inclusive n (day + 1)
    else scan t inclusive n (day + 1)

/-- The first tick after an instant, or at it when `inclusive`. -/
def occurrence (t : Instant) (inclusive : Bool) : Except EngineError (Option Instant) :=
  let anchor := Z.localDate t plan.tz
  plan.scan t inclusive (plan.span anchor) anchor

/-! ## The next tick comes later -/

variable {plan} {t tick : Instant} {inclusive : Bool}

theorem tickOn_after {day : Day} (h : plan.tickOn day t inclusive = some tick) :
    t < tick ∨ inclusive = true ∧ tick = t := by
  have hfound := List.find?_some h
  simpa using hfound

theorem scan_after {n : Nat} {day : Day} (h : plan.scan t inclusive n day = .ok (some tick)) :
    t < tick ∨ inclusive = true ∧ tick = t := by
  induction n generalizing day with
  | zero =>
    rw [scan] at h
    split at h
    · cases h
    · cases h
  | succ n ih =>
    obtain ⟨eligible, -, h⟩ := bind_eq_ok.mp h
    split at h
    · split at h
      · next found hfound =>
        cases h
        exact tickOn_after hfound
      · exact ih h
    · exact ih h

theorem occurrence_after (h : plan.occurrence t inclusive = .ok (some tick)) :
    t < tick ∨ inclusive = true ∧ tick = t := scan_after h

end SchedulePlan

end Dsl41.Timing
