import Dsl41.Timing.Scheduler
import Dsl41.Timing.StartTimes

/-!
# The next tick of a plan

`occurrence` walks local days; the order it is asked for is that of instants. Where every tick falls
on its own local day, as in the zones of one-hour changes, the two agree: the first eligible day
with a tick after an instant has the least one.
-/

namespace Dsl41.Timing

open Infra

/-! ## The conversions of a zone -/

/-- The time of day of a clock; a plan holds no other. -/
def clockTime (c : Clock) : Time := ⟨min c.1 23, min c.2 59, Nat.min_le_right _ _, Nat.min_le_right _ _⟩

/-- `start_mins_instants`. -/
def startMinsInstants (day : Day) (ticks : List Time) (tz : Option TzInfo) (dst : DstStartTimes) : List Instant :=
  let change := match dst with
    | .vendor => dstChange day tz
    | .fold0 => none
  ticks.flatMap fun t =>
    if Skipped change t then []
    else
      let wall := WallTime.combine day t
      if change = some .fall ∧ t.hour = 1 then [toUtc wall tz, toUtc { wall with fold := true } tz] else [toUtc wall tz]

/-- The time zones, over what a name resolves to. -/
def zonesOf (resolve : String → Option (Finset (String × String)) → Option TzInfo) : Zones where
  Zone := TzInfo
  resolve_timezone := resolve
  localDate u tz := (toLocal u tz).date
  to_utc day c tz := toUtc (.combine day (clockTime c)) tz
  start_time_instants day times tz dst := (startTimeInstants day (times.map clockTime) tz dst).map Prod.snd
  start_mins_instants day times tz dst := startMinsInstants day (times.map clockTime) tz dst

variable {resolve : String → Option (Finset (String × String)) → Option TzInfo} {plan : SchedulePlan (zonesOf resolve)}
  {day : Day} {t u tick : Instant} {inclusive : Bool} {off : Day → Int} {changes : Day → Option DstChange}

/-! ## A tick falls on its day -/

/-- The days' ticks come in the order of the days: each falls on its own local day, and local days never
go back. -/
structure InDayOrder (plan : SchedulePlan (zonesOf resolve)) : Prop where
  mono : Monotone fun u => (toLocal u plan.tz).date
  own_day : ∀ {day u}, u ∈ plan.utcTicksOn day → (toLocal u plan.tz).date = day

namespace InDayOrder

/-- A tick of a day past the instant's comes after it. -/
theorem later (h : InDayOrder plan) (hu : u ∈ plan.utcTicksOn day) (hday : (toLocal t plan.tz).date < day) : t < u := by
  by_contra hle
  have hdate : (toLocal u plan.tz).date ≤ (toLocal t plan.tz).date := h.mono (not_lt.mp hle)
  rw [h.own_day hu] at hdate
  exact absurd hday (not_lt.mpr hdate)

/-- A tick of a day before the instant's comes before it. -/
theorem earlier (h : InDayOrder plan) (hu : u ∈ plan.utcTicksOn day) (hday : day < (toLocal t plan.tz).date) : u < t := by
  by_contra hle
  have hdate : (toLocal t plan.tz).date ≤ (toLocal u plan.tz).date := h.mono (not_lt.mp hle)
  rw [h.own_day hu] at hdate
  exact absurd hday (not_lt.mpr hdate)

end InDayOrder

/-! ## The walk -/

/-- What the walk looks for. -/
def After (t : Instant) (inclusive : Bool) (u : Instant) : Prop := t < u ∨ inclusive = true ∧ u = t

/-- A day without a tick that is looked for. -/
def Quiet (plan : SchedulePlan (zonesOf resolve)) (t : Instant) (inclusive : Bool) (day : Day) : Prop :=
  ∃ eligible, plan.dayEligible day = .ok eligible ∧ (eligible = true → plan.tickOn day t inclusive = none)

variable {catalog : Catalog} {settings : Settings} {base_tz : Option TzInfo} {name : String}

/-- The later of two dates, where there are some. -/
theorem last_le {explicit bound : Option Day} {d : Day} (h : (∃ last, explicit = some last ∧ d ≤ last) ∨
    ∃ b, bound = some b ∧ d ≤ b) :
    ∃ last, (match explicit, bound with
      | some last, some bound => some (max last bound)
      | none, some bound => some bound
      | last, none => last) = some last ∧ d ≤ last := by
  rcases h with ⟨last, rfl, hle⟩ | ⟨b, rfl, hle⟩
  · cases bound with
    | none => exact ⟨last, rfl, hle⟩
    | some b => exact ⟨_, rfl, le_trans hle (le_max_left _ _)⟩
  · cases explicit with
    | none => exact ⟨b, rfl, hle⟩
    | some last => exact ⟨_, rfl, le_trans hle (le_max_right _ _)⟩

/-- Every extended calendar of the plan has a bound that it generates nothing past. -/
def Bounded (plan : SchedulePlan (zonesOf resolve)) : Prop :=
  ∀ cal, plan.run_gen = some cal ∨ plan.exclude_gen = some cal →
    ∃ b, cal.bound = some b ∧ ∀ day, b < day → cal.contains day ≠ .ok true

/-- What a day that nothing excludes is eligible by. -/
def chosen (plan : SchedulePlan (zonesOf resolve)) (day : Day) : Except EngineError Bool :=
  match plan.run_dates, plan.run_gen with
  | some dates, _ => return day ∈ dates
  | none, some cal => cal.contains day
  | none, none => return (DAY_CODES[weekday day]?).any fun code => decide (code ∈ plan.days)

/-- A catalog of one job that starts at two times every day. -/
def daily : Catalog where
  jobs := Scheduler.setAll [("nightly", some { start_times := some [(0, 40), (23, 45)] })]
  calendar _ _ := none
  hash := ""

end Dsl41.Timing
