import Mathlib
import Dsl41.Timing.Plan

/-!
# Run windows

The side of a run window that an instant falls on: the window's edges as instants, with the rules
for the days of a one-hour change, and the nearest edge on both sides. A zone is a parameter.
-/

namespace Dsl41.Timing

/-! ## Wall times -/

def MINUTE : Int := 60000000

def HOUR : Int := 60 * MINUTE

def DAY : Int := 24 * HOUR

/-- A time of day of a job's definition. -/
structure Time where
  hour : Nat
  minute : Nat
  hour_le : hour ≤ 23
  minute_le : minute ≤ 59
deriving DecidableEq

/-- `_to_time`, in microseconds since midnight. -/
def Time.toTime (t : Time) : Int := t.hour * HOUR + t.minute * MINUTE

theorem Time.toTime_nonneg (t : Time) : 0 ≤ t.toTime := by
  unfold toTime HOUR MINUTE
  omega

theorem Time.toTime_lt (t : Time) : t.toTime < DAY := by
  have hhour := t.hour_le
  have hminute := t.minute_le
  unfold toTime DAY HOUR MINUTE
  omega

/-- A naive `datetime`: a date, a time of day and the fold. -/
structure WallTime where
  date : Day
  time : Int
  fold : Bool
  time_nonneg : 0 ≤ time
  time_lt : time < DAY
deriving DecidableEq

namespace WallTime

/-- What naive datetimes are compared by. -/
def ticks (w : WallTime) : Int := w.date * DAY + w.time

def hour (w : WallTime) : Int := w.time / HOUR

/-- `datetime.combine`. -/
def combine (day : Day) (t : Time) : WallTime := ⟨day, t.toTime, false, t.toTime_nonneg, t.toTime_lt⟩

theorem hour_combine (day : Day) {t : Time} : (combine day t).hour = t.hour := by
  have hminute := t.minute_le
  show (t.hour * HOUR + t.minute * MINUTE) / HOUR = t.hour
  unfold HOUR MINUTE
  omega

/-- `replace(hour=…, minute=…, second=0, microsecond=0)`. -/
def replaceTime (w : WallTime) (t : Time) : WallTime :=
  { w with time := t.toTime, time_nonneg := t.toTime_nonneg, time_lt := t.toTime_lt }

/-- The same time on another day: a sum has no fold. -/
def addDays (w : WallTime) (k : Int) : WallTime := { w with date := w.date + k, fold := false }

end WallTime

/-! ## Zones -/

/-- A zone's own two answers: the offset of a wall time, and the wall time of an instant. -/
structure TzInfo where
  utcoffset : WallTime → Int
  fromutc : Instant → WallTime

def toLocal (when_ : Instant) : Option TzInfo → WallTime
  | none =>
    have hpos : 0 < DAY := by decide
    ⟨when_ / DAY, when_ % DAY, false, Int.emod_nonneg _ hpos.ne', Int.emod_lt_of_pos _ hpos⟩
  | some tz => tz.fromutc when_

def toUtc (w : WallTime) : Option TzInfo → Instant
  | none => w.ticks
  | some tz => w.ticks - tz.utcoffset w

inductive DstChange
  | spring | fall
deriving DecidableEq

def MISSING_HOUR : Int := 2

def REPEATED_HOUR : Int := 1

/-- The offset of a wall time at either fold. -/
def offsets (w : WallTime) (tz : TzInfo) : Int × Int :=
  (tz.utcoffset { w with fold := false }, tz.utcoffset { w with fold := true })

section Change

variable (day : Day) (tz : TzInfo) (t : Time)

def gap : Bool :=
  let (before, after) := offsets (.combine day t) tz
  after - before = HOUR

def repeats : Bool :=
  let (first, second) := offsets (.combine day t) tz
  first - second = HOUR

def clean : Bool :=
  let (first, second) := offsets (.combine day t) tz
  first = second

end Change

/-- The documented one-hour change on a local day. -/
def dstChange (day : Day) : Option TzInfo → Option DstChange
  | none => none
  | some tz =>
    if gap day tz ⟨2, 0, by decide, by decide⟩ && gap day tz ⟨2, 59, by decide, by decide⟩ &&
        clean day tz ⟨1, 59, by decide, by decide⟩ && clean day tz ⟨3, 0, by decide, by decide⟩ then
      some .spring
    else if repeats day tz ⟨1, 0, by decide, by decide⟩ && repeats day tz ⟨1, 59, by decide, by decide⟩ &&
        clean day tz ⟨0, 59, by decide, by decide⟩ && clean day tz ⟨2, 0, by decide, by decide⟩ then
      some .fall
    else none

def SECOND : Int := 1000000

/-- `vendor_gap_instant` of a time in the missing hour: its minute is read as seconds. -/
def vendorGapInstant (day : Day) (minute : Nat) (tz : Option TzInfo) : Instant :=
  toUtc (WallTime.combine day ⟨3, 0, by decide, by decide⟩) tz + minute * SECOND

def twoOClock : Time := ⟨2, 0, by decide, by decide⟩

def threeOClock : Time := ⟨3, 0, by decide, by decide⟩

/-- Whether a documented change falls within two days. -/
def dstChangeNear (day : Day) (tz : Option TzInfo) : Bool :=
  tz.isSome && [-2, -1, 0, 1, 2].any fun k => (dstChange (day + k) tz).isSome

/-! ## Windows -/

/-- The window that opens on a local day, as two instants. -/
def windowSpan (day : Day) (lo hi : Time) (tz : Option TzInfo) : Instant × Instant :=
  let start := WallTime.combine day lo
  let stop := WallTime.combine (if lo.toTime ≤ hi.toTime then day else day + 1) hi
  let change := dstChange day tz
  let opensRepeated := decide (change = some .fall ∧ start.hour = REPEATED_HOUR)
  let opens :=
    if change = some .spring ∧ start.hour = MISSING_HOUR then
      toUtc (start.replaceTime ⟨3, 0, by decide, by decide⟩) tz
    else toUtc { start with fold := opensRepeated } tz
  if lo = hi then (opens, opens)
  else
    -- fold 0 is the close in both seasons, but for one that follows its opening into the second pass
    let closesSecond := opensRepeated && decide (stop.date = day ∧ stop.hour = REPEATED_HOUR)
    (opens, toUtc { stop with fold := closesSecond } tz)

def windowSpansNear (today : Day) (lo hi : Time) (tz : Option TzInfo) : Option (List (Instant × Instant)) :=
  if dstChangeNear today tz then some ([-2, -1, 0, 1].map fun k => windowSpan (today + k) lo hi tz)
  else none

def wallWindowContains (now lo hi : Int) : Bool :=
  if lo ≤ hi then lo ≤ now ∧ now ≤ hi else lo ≤ now ∨ now ≤ hi

def nextOccurrence (now : WallTime) (target : Time) : WallTime :=
  let candidate := now.replaceTime target
  if candidate.ticks ≤ now.ticks then candidate.addDays 1 else candidate

def prevOccurrence (now : WallTime) (target : Time) : WallTime :=
  let candidate := now.replaceTime target
  if now.ticks < candidate.ticks then candidate.addDays (-1) else candidate

inductive Side
  | inside
  | defer (next_open : Instant)
  | skip
deriving DecidableEq

/-- `min` or `max` of nothing. -/
inductive ValueError
  | emptyMin | emptyMax
deriving DecidableEq

/-- The nearest opening after an instant, and the nearest close before it. -/
def nearest (now : Instant) (spans : List (Instant × Instant)) : Except ValueError (Instant × Instant) := do
  let next_open ← ((spans.map Prod.fst).filter fun opens => now < opens).min?.elim (throw .emptyMin) pure
  let prev_close ← ((spans.map Prod.snd).filter fun closes => closes < now).max?.elim (throw .emptyMax) pure
  return (next_open, prev_close)

/-- The closer edge of the window: both distances are measured between instants. -/
def closer (now : Instant) (edges : Instant × Instant) : Side :=
  let to_open := edges.1 - now
  let since_close := now - edges.2
  if to_open ≤ since_close then .defer edges.1 else .skip

/-- `_window_side`. -/
def windowSide (run_window : Option (Time × Time)) (tz : Option TzInfo) (now : Instant) :
    Except ValueError Side :=
  match run_window with
  | none => return .inside
  | some (lo, hi) =>
    let now_local := toLocal now tz
    match windowSpansNear now_local.date lo hi tz with
    | some spans =>
      if spans.any fun span => span.1 ≤ now ∧ now ≤ span.2 then return .inside
      else (nearest now spans).map (closer now)
    | none =>
      if wallWindowContains now_local.time lo.toTime hi.toTime then return .inside
      else return closer now (toUtc (nextOccurrence now_local lo) tz, toUtc (prevOccurrence now_local hi) tz)

/-! ## Zones of one-hour changes -/

/-- The offset through a day that begins at an offset. -/
def offsetOn (o : Int) (change : Option DstChange) (time : Int) (fold : Bool) : Int :=
  match change with
  | none => o
  | some .spring => if time < 2 * HOUR ∨ time < 3 * HOUR ∧ fold = false then o else o + HOUR
  | some .fall => if time < HOUR ∨ time < 2 * HOUR ∧ fold = false then o else o - HOUR

/-- The offset that the next day begins at. -/
def offsetAfter (o : Int) : Option DstChange → Int
  | none => o
  | some .spring => o + HOUR
  | some .fall => o - HOUR

/-- The offset changes by an hour at a time: at 02:00 forward, or back over the hour before it. -/
def TzInfo.OneHour (tz : TzInfo) : Prop :=
  ∃ (off : Day → Int) (change : Day → Option DstChange),
    (∀ day, off (day + 1) = offsetAfter (off day) (change day)) ∧
      ∀ w : WallTime, tz.utcoffset w = offsetOn (off w.date) (change w.date) w.time w.fold

/-- What a zone promises: the wall time of an instant leads back to it. -/
def TzInfo.Lawful (tz : TzInfo) : Prop := ∀ u, toUtc (tz.fromutc u) (some tz) = u

/-- No zone, or one whose only changes are the documented ones. -/
def Documented (tz : Option TzInfo) : Prop := ∀ zone ∈ tz, zone.Lawful ∧ zone.OneHour

/-- How a documented zone reads: the offset at each midnight, and the change of each day. -/
structure Reads (tz : Option TzInfo) (off : Day → Int) (change : Day → Option DstChange) : Prop where
  next : ∀ day, off (day + 1) = offsetAfter (off day) (change day)
  utc : ∀ w : WallTime, toUtc w tz = w.ticks - offsetOn (off w.date) (change w.date) w.time w.fold
  back : ∀ u, toUtc (toLocal u tz) tz = u
  change_eq : ∀ day, dstChange day tz = change day

/-- The change is recognised. -/
theorem dstChange_eq {tz : TzInfo} {day : Day} {o : Int} {change : Option DstChange}
    (h : ∀ w : WallTime, w.date = day → tz.utcoffset w = offsetOn o change w.time w.fold) :
    dstChange day (some tz) = change := by
  have hoffset : ∀ (t : Time) (fold : Bool), tz.utcoffset { WallTime.combine day t with fold := fold } =
      offsetOn o change t.toTime fold := fun t fold => h _ rfl
  simp only [dstChange, gap, repeats, clean, offsets, hoffset, Time.toTime]
  rcases change with _ | _ | _ <;> simp [offsetOn, HOUR, MINUTE]

theorem Documented.reads {tz : Option TzInfo} (h : Documented tz) : ∃ off change, Reads tz off change := by
  cases tz with
  | none =>
    refine ⟨fun _ => 0, fun _ => none, fun _ => rfl, fun w => (Int.sub_zero _).symm, fun u => ?_, fun _ => rfl⟩
    exact Int.ediv_mul_add_emod u DAY
  | some tz =>
    obtain ⟨hlawful, off, change, hnext, hoffset⟩ := h tz rfl
    refine ⟨off, change, hnext, fun w => ?_, hlawful, fun day => ?_⟩
    · rw [toUtc, hoffset]
    · exact dstChange_eq fun w hw => by rw [hoffset, hw]

/-! ## Midnights -/

section Midnights

variable {tz : Option TzInfo} {off : Day → Int} {change : Day → Option DstChange} {day : Day} {u : Instant}
  {lo hi : Time}

/-- The instant that a local day begins at. -/
def midnight (off : Day → Int) (day : Day) : Instant := day * DAY - off day

/-- The hours of a day run from its beginning to the next day's. -/
theorem offsetOn_between {o time : Int} {change : Option DstChange} {fold : Bool} (hnonneg : 0 ≤ time)
    (hlt : time < DAY) :
    offsetOn o change time fold - o ≤ time ∧
      time - offsetOn o change time fold < DAY - offsetAfter o change := by
  unfold DAY HOUR MINUTE at *
  rcases change with _ | _ | _
  · simp only [offsetOn, offsetAfter]
    omega
  all_goals
    simp only [offsetOn, offsetAfter, HOUR, MINUTE]
    split_ifs <;> omega

/-- A wall time of a day, in a gap or not, falls between the day's midnights. -/
theorem Reads.between (h : Reads tz off change) (w : WallTime) :
    midnight off w.date ≤ toUtc w tz ∧ toUtc w tz < midnight off (w.date + 1) := by
  have hday := @offsetOn_between (off w.date) w.time (change w.date) w.fold w.time_nonneg w.time_lt
  have hstep : (w.date + 1) * DAY = w.date * DAY + DAY := by rw [Int.add_mul, Int.one_mul]
  rw [h.utc, midnight, midnight, h.next, WallTime.ticks, hstep]
  lia

theorem Reads.midnight_strictMono (h : Reads tz off change) : StrictMono (midnight off) := by
  refine strictMono_int_of_lt_succ fun day => ?_
  have hmid := h.between ⟨day, 0, false, le_rfl, by decide⟩
  exact lt_of_le_of_lt hmid.1 hmid.2

/-- An instant falls on its local day. -/
theorem Reads.local_day (h : Reads tz off change) (u : Instant) :
    midnight off (toLocal u tz).date ≤ u ∧ u < midnight off ((toLocal u tz).date + 1) := by
  have hday := h.between (toLocal u tz)
  rwa [h.back] at hday

/-! ## Edges -/

/-- The instant that a day's window opens at. -/
def opens (tz : Option TzInfo) (lo hi : Time) (day : Day) : Instant := (windowSpan day lo hi tz).1

def closes (tz : Option TzInfo) (lo hi : Time) (day : Day) : Instant := (windowSpan day lo hi tz).2

theorem closes_eq_opens (h : lo = hi) : closes tz lo hi day = opens tz lo hi day := by
  unfold closes opens windowSpan
  simp only [if_pos h]

/-- A window opens on its day. -/
theorem Reads.opens_between (h : Reads tz off change) :
    midnight off day ≤ opens tz lo hi day ∧ opens tz lo hi day < midnight off (day + 1) := by
  have hstart : ∃ w : WallTime, w.date = day ∧ opens tz lo hi day = toUtc w tz := by
    unfold opens windowSpan
    dsimp only
    split_ifs
    all_goals exact ⟨_, rfl, rfl⟩
  obtain ⟨w, rfl, hw⟩ := hstart
  rw [hw]
  exact h.between w

/-- A window closes on its day, or on the next. -/
theorem Reads.closes_lt (h : Reads tz off change) : closes tz lo hi day < midnight off (day + 2) := by
  by_cases heq : lo = hi
  · rw [closes_eq_opens heq]
    exact lt_trans h.opens_between.2 (h.midnight_strictMono (Int.add_lt_add_left (by decide) day))
  · have hstop : ∃ w : WallTime, (w.date = day ∨ w.date = day + 1) ∧ closes tz lo hi day = toUtc w tz := by
      unfold closes windowSpan
      simp only [if_neg heq]
      refine ⟨_, ?_, rfl⟩
      show (if lo.toTime ≤ hi.toTime then day else day + 1) = day ∨ _
      split_ifs
      · exact .inl rfl
      · exact .inr rfl
    obtain ⟨w, hdate, hw⟩ := hstop
    rw [hw]
    have hle : w.date + 1 ≤ day + 2 := by lia
    exact lt_of_lt_of_le (h.between w).2 (h.midnight_strictMono.monotone hle)

/-- The hour of a time of day. -/
theorem Time.hour_eq_iff {t : Time} {n : Nat} :
    t.hour = n ↔ n * HOUR ≤ t.toTime ∧ t.toTime < n * HOUR + HOUR := by
  have hminute := t.minute_le
  unfold toTime HOUR MINUTE
  omega

/-- How long after midnight a window opens. -/
def opening (change : Option DstChange) (lo : Int) : Int :=
  match change with
  | none => lo
  | some .spring => if lo < 2 * HOUR then lo else if lo < 3 * HOUR then 2 * HOUR else lo - HOUR
  | some .fall => if lo < HOUR then lo else lo + HOUR

/-- How long after midnight a window that closes on its day does. -/
def closing (change : Option DstChange) (lo hi : Int) : Int :=
  match change with
  | none => hi
  | some .spring => if hi < 3 * HOUR then hi else hi - HOUR
  | some .fall => if hi < HOUR ∨ hi < 2 * HOUR ∧ lo < HOUR then hi else hi + HOUR

theorem Reads.opens_eq (h : Reads tz off change) :
    opens tz lo hi day = midnight off day + opening (change day) lo.toTime := by
  have hmissing := Time.hour_eq_iff (t := lo) (n := 2)
  have hrepeated := Time.hour_eq_iff (t := lo) (n := 1)
  have hopens : opens tz lo hi day =
      if dstChange day tz = some .spring ∧ (lo.hour : Int) = MISSING_HOUR then
        toUtc (WallTime.combine day ⟨3, 0, by decide, by decide⟩) tz
      else toUtc { WallTime.combine day lo with
        fold := decide (dstChange day tz = some .fall ∧ (lo.hour : Int) = REPEATED_HOUR) } tz := by
    rw [← WallTime.hour_combine day]
    unfold opens windowSpan
    dsimp only
    split_ifs <;> rfl
  rw [hopens, h.change_eq]
  simp only [h.utc, WallTime.ticks, WallTime.combine, midnight, opening, Time.toTime, MISSING_HOUR, REPEATED_HOUR,
    HOUR, MINUTE] at *
  rcases change day with _ | _ | _
  · simp only [reduceCtorEq, false_and, if_false, offsetOn]
    lia
  · simp only [true_and, Nat.cast_ofNat, Nat.cast_zero, zero_mul, add_zero, offsetOn, HOUR, MINUTE, Int.reduceMul,
      Int.reduceLT, lt_self_iff_false, and_true, or_self, if_false, Option.some.injEq, reduceCtorEq, Nat.cast_eq_one,
      false_and, decide_false]
    split_ifs <;> lia
  · simp only [Option.some.injEq, reduceCtorEq, false_and, if_false, offsetOn, HOUR, MINUTE, Nat.cast_eq_one, true_and,
      decide_eq_false_iff_not]
    split_ifs <;> lia

/-- A window that crosses no midnight closes on its day. -/
theorem Reads.closes_eq (h : Reads tz off change) (hle : lo.toTime ≤ hi.toTime) (hne : lo ≠ hi) :
    closes tz lo hi day = midnight off day + closing (change day) lo.toTime hi.toTime := by
  have hlo := Time.hour_eq_iff (t := lo) (n := 1)
  have hhi := Time.hour_eq_iff (t := hi) (n := 1)
  have hcloses : closes tz lo hi day = toUtc { WallTime.combine day hi with
      fold := decide (dstChange day tz = some .fall ∧ (lo.hour : Int) = REPEATED_HOUR) &&
        decide ((hi.hour : Int) = REPEATED_HOUR) } tz := by
    rw [← WallTime.hour_combine day, ← WallTime.hour_combine day]
    unfold closes windowSpan
    dsimp only
    simp only [if_neg hne, if_pos hle]
    have hdate : (WallTime.combine day hi).date = day := rfl
    simp only [hdate, true_and]
  rw [hcloses, h.change_eq]
  simp only [h.utc, WallTime.ticks, WallTime.combine, midnight, closing, Time.toTime, REPEATED_HOUR, HOUR, MINUTE] at *
  rcases change day with _ | _ | _
  · simp only [offsetOn]
    lia
  · simp only [offsetOn, HOUR, MINUTE, Option.some.injEq, reduceCtorEq, Nat.cast_eq_one, false_and, decide_false,
      Bool.false_and, and_true]
    split_ifs <;> lia
  · simp only [offsetOn, HOUR, MINUTE, Nat.cast_eq_one, true_and, Bool.and_eq_false_imp, decide_eq_true_eq,
      decide_eq_false_iff_not]
    split_ifs <;> lia

theorem opening_le_closing {change : Option DstChange} {lo hi : Int} (h : lo ≤ hi) :
    opening change lo ≤ closing change lo hi := by
  rcases change with _ | _ | _
  · exact h
  all_goals
    simp only [opening, closing, HOUR, MINUTE]
    split_ifs <;> omega

/-- A window opens before it closes. -/
theorem Reads.opens_le_closes (h : Reads tz off change) : opens tz lo hi day ≤ closes tz lo hi day := by
  by_cases hne : lo = hi
  · exact (closes_eq_opens hne).ge
  by_cases hle : lo.toTime ≤ hi.toTime
  · rw [h.opens_eq, h.closes_eq hle hne]
    exact Int.add_le_add_left (opening_le_closing hle) _
  · have hcloses : midnight off (day + 1) ≤ closes tz lo hi day := by
      unfold closes windowSpan
      simp only [if_neg hne, if_neg hle]
      exact (h.between _).1
    exact le_of_lt (lt_of_lt_of_le h.opens_between.2 hcloses)

/-! ## Inside the window -/

/-- An instant is inside when some day's window spans it. -/
def Inside (tz : Option TzInfo) (lo hi : Time) (u : Instant) : Prop :=
  ∃ day, opens tz lo hi day ≤ u ∧ u ≤ closes tz lo hi day

/-- The opening after an instant is its own day's, or the next day's. -/
def nextOpening (tz : Option TzInfo) (lo hi : Time) (u : Instant) : Instant :=
  let today := (toLocal u tz).date
  if u < opens tz lo hi today then opens tz lo hi today else opens tz lo hi (today + 1)

theorem Reads.opened_before (h : Reads tz off change) (hday : day < (toLocal u tz).date) :
    opens tz lo hi day < u :=
  lt_of_lt_of_le (lt_of_lt_of_le h.opens_between.2 (h.midnight_strictMono.monotone hday)) (h.local_day u).1

theorem Reads.opens_after (h : Reads tz off change) (hday : (toLocal u tz).date < day) :
    u < opens tz lo hi day :=
  lt_of_lt_of_le (lt_of_lt_of_le (h.local_day u).2 (h.midnight_strictMono.monotone hday)) h.opens_between.1

theorem Reads.closed_before (h : Reads tz off change) (hday : day + 1 < (toLocal u tz).date) :
    closes tz lo hi day < u :=
  lt_of_lt_of_le (lt_of_lt_of_le h.closes_lt (h.midnight_strictMono.monotone (by lia))) (h.local_day u).1

/-- The windows of later days open later. -/
theorem Reads.opens_strictMono (h : Reads tz off change) : StrictMono (opens tz lo hi) :=
  strictMono_int_of_lt_succ fun _ => lt_of_lt_of_le h.opens_between.2 h.opens_between.1

/-- Only a window that opened today or yesterday spans an instant. -/
theorem Reads.inside_iff (h : Reads tz off change) :
    Inside tz lo hi u ↔ ∃ k ∈ [-1, 0], opens tz lo hi ((toLocal u tz).date + k) ≤ u ∧
      u ≤ closes tz lo hi ((toLocal u tz).date + k) := by
  constructor
  · rintro ⟨day, hopens, hcloses⟩
    have hlate : ¬(toLocal u tz).date < day := fun hday => absurd (h.opens_after hday) (not_lt.mpr hopens)
    have hearly : ¬day + 1 < (toLocal u tz).date := fun hday => absurd (h.closed_before hday) (not_lt.mpr hcloses)
    refine ⟨day - (toLocal u tz).date, ?_, ?_⟩
    · simp only [List.mem_cons, List.not_mem_nil, or_false]
      lia
    · rw [add_sub_cancel]
      exact ⟨hopens, hcloses⟩
  · rintro ⟨k, -, hk⟩
    exact ⟨_, hk⟩

/-- No window opens between an instant and the next opening. -/
theorem Reads.nextOpening_least (h : Reads tz off change) (lo hi : Time) (u : Instant) :
    IsLeast {o | u < o ∧ ∃ day, o = opens tz lo hi day} (nextOpening tz lo hi u) := by
  unfold nextOpening
  dsimp only
  split_ifs with htoday
  · refine ⟨⟨htoday, _, rfl⟩, ?_⟩
    rintro o ⟨ho, day, rfl⟩
    refine h.opens_strictMono.monotone (not_lt.mp fun hday => ?_)
    exact absurd (h.opened_before hday) (not_lt.mpr (le_of_lt ho))
  · refine ⟨⟨h.opens_after (lt_add_one _), _, rfl⟩, ?_⟩
    rintro o ⟨ho, day, rfl⟩
    refine h.opens_strictMono.monotone (not_lt.mp fun hday => ?_)
    rcases lt_or_eq_of_le (Int.lt_add_one_iff.mp hday) with hday | rfl
    · exact absurd (h.opened_before hday) (not_lt.mpr (le_of_lt ho))
    · exact htoday ho

/-! ## Near a change -/

/-- The nearest edges among the four days' windows: there always is one on each side. -/
theorem Reads.nearest_eq (h : Reads tz off change) (u : Instant) (lo hi : Time) :
    ∃ prev_close, nearest u ([-2, -1, 0, 1].map fun k => windowSpan ((toLocal u tz).date + k) lo hi tz) =
      .ok (nextOpening tz lo hi u, prev_close) := by
  generalize hday : (toLocal u tz).date = today
  have hopens (day : Day) : (windowSpan day lo hi tz).1 = opens tz lo hi day := rfl
  have hcloses (day : Day) : (windowSpan day lo hi tz).2 = closes tz lo hi day := rfl
  have hfirst : ¬u < opens tz lo hi (today + -2) := not_lt.mpr (le_of_lt (h.opened_before (by lia)))
  have hsecond : ¬u < opens tz lo hi (today + -1) := not_lt.mpr (le_of_lt (h.opened_before (by lia)))
  have hlast : u < opens tz lo hi (today + 1) := h.opens_after (by lia)
  have hnext : (([-2, -1, 0, 1].map fun k => windowSpan (today + k) lo hi tz).map Prod.fst |>.filter
      fun opens => u < opens).min? = some (nextOpening tz lo hi u) := by
    have hle : opens tz lo hi today ≤ opens tz lo hi (today + 1) := h.opens_strictMono.monotone (by lia)
    have hzero : today + 0 = today := Int.add_zero today
    by_cases hnow : u < opens tz lo hi today
    · simp [hopens, hfirst, hsecond, hlast, hnow, hzero, nextOpening, hday, hle]
    · simp [hopens, hfirst, hsecond, hlast, hnow, hzero, nextOpening, hday]
  have hprev : ∃ prev_close, (([-2, -1, 0, 1].map fun k => windowSpan (today + k) lo hi tz).map Prod.snd |>.filter
      fun closes => closes < u).max? = some prev_close := by
    have hclosed : closes tz lo hi (today + -2) < u := h.closed_before (by lia)
    refine Option.ne_none_iff_exists'.mp fun hnone => ?_
    rw [List.max?_eq_none_iff, List.filter_eq_nil_iff] at hnone
    exact hnone _ (List.mem_map_of_mem (List.mem_cons_self)) (decide_eq_true hclosed)
  obtain ⟨prev_close, hprev⟩ := hprev
  refine ⟨prev_close, ?_⟩
  rw [nearest, hnext, hprev]
  rfl

theorem Reads.windowSide_near (h : Reads tz off change) (hnear : dstChangeNear (toLocal u tz).date tz = true) :
    (Inside tz lo hi u → windowSide (some (lo, hi)) tz u = .ok .inside) ∧
      (¬Inside tz lo hi u → ∃ prev_close,
        windowSide (some (lo, hi)) tz u = .ok (closer u (nextOpening tz lo hi u, prev_close))) := by
  obtain ⟨prev_close, hnearest⟩ := h.nearest_eq u lo hi
  have hany : (([-2, -1, 0, 1].map fun k => windowSpan ((toLocal u tz).date + k) lo hi tz).any
      fun span => span.1 ≤ u ∧ u ≤ span.2) = true ↔ Inside tz lo hi u := by
    rw [List.any_map, List.any_eq_true]
    constructor
    · rintro ⟨k, -, hk⟩
      exact ⟨_, of_decide_eq_true hk⟩
    · intro hin
      obtain ⟨k, hmem, hk⟩ := h.inside_iff.mp hin
      exact ⟨k, by simp at hmem ⊢; lia, decide_eq_true hk⟩
  unfold windowSide windowSpansNear
  simp only [hnear, if_true]
  constructor
  · intro hin
    rw [if_pos (hany.mpr hin)]
    rfl
  · intro hout
    rw [if_neg (hout <| hany.mp ·), hnearest]
    exact ⟨prev_close, rfl⟩

/-! ## Far from a change -/

/-- With no change near, the offset is one and the same from yesterday to tomorrow. -/
theorem Reads.quiet (h : Reads tz off change) (hfar : dstChangeNear day tz = false) {k : Int}
    (hk : -1 ≤ k ∧ k ≤ 1) : change (day + k) = none ∧ off (day + k) = off day := by
  have hnone (k : Int) (hk : k ∈ [-2, -1, 0, 1, 2]) : change (day + k) = none := by
    rw [← h.change_eq]
    cases tz with
    | none => rfl
    | some tz =>
      rw [dstChangeNear, Option.isSome_some, Bool.true_and, List.any_eq_false] at hfar
      exact Option.not_isSome_iff_eq_none.mp (hfar k hk)
  have hyesterday := h.next (day + -1)
  have htoday := h.next (day + 0)
  rw [hnone _ (by decide), offsetAfter, Int.neg_add_cancel_right] at hyesterday
  rw [hnone _ (by decide), offsetAfter, Int.add_zero] at htoday
  have hcases : k = -1 ∨ k = 0 ∨ k = 1 := by omega
  rcases hcases with rfl | rfl | rfl
  · exact ⟨hnone _ (by decide), hyesterday.symm⟩
  · exact ⟨hnone _ (by decide), by rw [Int.add_zero]⟩
  · exact ⟨hnone _ (by decide), htoday⟩

theorem Reads.utc_far (h : Reads tz off change) (hfar : dstChangeNear day tz = false) {w : WallTime}
    (hw : -1 ≤ w.date - day ∧ w.date - day ≤ 1) : toUtc w tz = w.ticks - off day := by
  obtain ⟨hchange, hoff⟩ := h.quiet hfar hw
  rw [add_sub_cancel] at hchange hoff
  rw [h.utc, hchange, hoff, offsetOn]

theorem Reads.opens_far (h : Reads tz off change) (lo hi : Time) (hfar : dstChangeNear day tz = false) {k : Int}
    (hk : -1 ≤ k ∧ k ≤ 1) : opens tz lo hi (day + k) = (day + k) * DAY + lo.toTime - off day := by
  obtain ⟨hchange, hoff⟩ := h.quiet hfar hk
  rw [h.opens_eq, midnight, hchange, hoff, opening]
  lia

theorem Reads.closes_far (h : Reads tz off change) (hfar : dstChangeNear day tz = false) {k : Int}
    (hk : -1 ≤ k ∧ k ≤ 0) : closes tz lo hi (day + k) =
      (if lo.toTime ≤ hi.toTime then day + k else day + k + 1) * DAY + hi.toTime - off day := by
  by_cases heq : lo = hi
  · rw [closes_eq_opens heq, h.opens_far lo hi hfar (by omega), heq, if_pos le_rfl]
  · have hcloses : ∃ w : WallTime, w.date = (if lo.toTime ≤ hi.toTime then day + k else day + k + 1) ∧
        w.time = hi.toTime ∧ closes tz lo hi (day + k) = toUtc w tz := by
      unfold closes windowSpan
      simp only [if_neg heq]
      exact ⟨_, rfl, rfl, rfl⟩
    obtain ⟨w, hdate, htime, hw⟩ := hcloses
    have hnear : -1 ≤ w.date - day ∧ w.date - day ≤ 1 := by
      rw [hdate]
      split_ifs <;> lia
    rw [hw, h.utc_far hfar hnear, WallTime.ticks, hdate, htime]

/-- Far from a change the wall clock alone says what is inside. -/
theorem Reads.inside_far (h : Reads tz off change) (hfar : dstChangeNear (toLocal u tz).date tz = false) :
    Inside tz lo hi u ↔ wallWindowContains (toLocal u tz).time lo.toTime hi.toTime = true := by
  have hu := h.utc_far (w := toLocal u tz) hfar (by rw [Int.sub_self]; decide)
  have hlo := And.intro lo.toTime_nonneg lo.toTime_lt
  have hhi := And.intro hi.toTime_nonneg hi.toTime_lt
  have htime := And.intro (toLocal u tz).time_nonneg (toLocal u tz).time_lt
  rw [h.back, WallTime.ticks] at hu
  rw [h.inside_iff, wallWindowContains]
  simp only [List.mem_cons, List.not_mem_nil, or_false, exists_eq_or_imp, exists_eq_left]
  rw [h.opens_far lo hi hfar (by decide), h.opens_far lo hi hfar (by decide), h.closes_far hfar (by decide),
    h.closes_far hfar (by decide)]
  generalize (toLocal u tz).date = today at *
  generalize (toLocal u tz).time = time at *
  unfold DAY HOUR MINUTE at *
  split_ifs with hle
  · simp only [decide_eq_true_eq]
    lia
  · simp only [decide_eq_true_eq]
    lia

/-- Far from a change the next occurrence of the opening time is the next opening. -/
theorem Reads.nextOccurrence_far (h : Reads tz off change) (hi : Time)
    (hfar : dstChangeNear (toLocal u tz).date tz = false) :
    toUtc (nextOccurrence (toLocal u tz) lo) tz = nextOpening tz lo hi u := by
  have hu := h.utc_far (w := toLocal u tz) hfar (by rw [Int.sub_self]; decide)
  have htoday := h.opens_far lo hi (k := 0) hfar (by decide)
  have htomorrow := h.opens_far lo hi (k := 1) hfar (by decide)
  rw [h.back, WallTime.ticks] at hu
  rw [Int.add_zero] at htoday
  have hnow : u < opens tz lo hi (toLocal u tz).date ↔ ¬lo.toTime ≤ (toLocal u tz).time := by
    rw [htoday]
    generalize toLocal u tz = w at hu ⊢
    rw [hu, not_le, sub_lt_sub_iff_right, add_lt_add_iff_left]
  unfold nextOccurrence nextOpening WallTime.replaceTime WallTime.addDays WallTime.ticks
  dsimp only
  by_cases hle : lo.toTime ≤ (toLocal u tz).time
  · rw [if_pos (Int.add_le_add_left hle _), if_neg (fun hlt => hnow.mp hlt hle), htomorrow, h.utc_far hfar]
    · rfl
    · dsimp only
      lia
  · rw [if_neg (hle <| Int.le_of_add_le_add_left ·), if_pos (hnow.mpr hle), htoday, h.utc_far hfar]
    · rfl
    · dsimp only
      lia

/-! ## The side of the window -/

/-- Every instant has a side: inside when a window spans it, else by the edges nearest to it. -/
theorem Reads.windowSide_eq (h : Reads tz off change) (lo hi : Time) (u : Instant) :
    (Inside tz lo hi u → windowSide (some (lo, hi)) tz u = .ok .inside) ∧
      (¬Inside tz lo hi u → ∃ prev_close,
        windowSide (some (lo, hi)) tz u = .ok (closer u (nextOpening tz lo hi u, prev_close))) := by
  cases hnear : dstChangeNear (toLocal u tz).date tz with
  | true => exact h.windowSide_near hnear
  | false =>
    unfold windowSide windowSpansNear
    simp only [hnear, Bool.false_eq_true, if_false]
    constructor
    · intro hin
      rw [if_pos ((h.inside_far hnear).mp hin)]
      rfl
    · intro hout
      rw [if_neg (hout <| (h.inside_far hnear).mpr ·), h.nextOccurrence_far hi hnear]
      exact ⟨_, rfl⟩

theorem Reads.windowSide_inside (h : Reads tz off change) :
    windowSide (some (lo, hi)) tz u = .ok .inside ↔ Inside tz lo hi u := by
  refine ⟨fun hside => ?_, (h.windowSide_eq lo hi u).1⟩
  by_contra hout
  obtain ⟨prev_close, hcloser⟩ := (h.windowSide_eq lo hi u).2 hout
  rw [hside, closer] at hcloser
  split_ifs at hcloser <;> cases hcloser

end Midnights

/-- The window's side is always answered, so a nearest edge is never sought among none; and a start
that is deferred to an opening waits for a later instant, the first one after now that is inside. -/
theorem windowSide_defers {tz : Option TzInfo} (h : Documented tz) (lo hi : Time) (now : Instant) :
    (∃ side, windowSide (some (lo, hi)) tz now = .ok side) ∧
      ∀ next_open, windowSide (some (lo, hi)) tz now = .ok (.defer next_open) →
        now < next_open ∧ windowSide (some (lo, hi)) tz next_open = .ok .inside ∧
          ∀ earlier, now < earlier → earlier < next_open →
            windowSide (some (lo, hi)) tz earlier ≠ .ok .inside := by
  obtain ⟨off, change, hreads⟩ := h.reads
  obtain ⟨hside, hcloser⟩ := hreads.windowSide_eq lo hi now
  by_cases hin : Inside tz lo hi now
  · exact ⟨⟨_, hside hin⟩, fun next_open hdefer => by cases (hside hin).symm.trans hdefer⟩
  obtain ⟨prev_close, hnow⟩ := hcloser hin
  refine ⟨⟨_, hnow⟩, fun next_open hdefer => ?_⟩
  obtain rfl : nextOpening tz lo hi now = next_open := by
    rw [hnow, closer] at hdefer
    split_ifs at hdefer
    · cases hdefer
      rfl
    · cases hdefer
  obtain ⟨⟨hlater, day, hday⟩, hleast⟩ := hreads.nextOpening_least lo hi now
  refine ⟨hlater, hreads.windowSide_inside.mpr ⟨day, hday.ge, hday.trans_le hreads.opens_le_closes⟩, ?_⟩
  intro earlier hafter hbefore hinside
  obtain ⟨day', hopens, hcloses⟩ := hreads.windowSide_inside.mp hinside
  -- the window that spans the earlier instant opens after now, or spans now as well
  rcases lt_or_ge now (opens tz lo hi day') with hopens' | hopens'
  · exact absurd (hleast ⟨hopens', day', rfl⟩) (not_le.mpr (lt_of_le_of_lt hopens hbefore))
  · exact hin ⟨day', hopens', le_trans (le_of_lt hafter) hcloses⟩

/-! ## A zone with a summer -/

/-- A change forward on the tenth day, and back on the twentieth. -/
def summerChange (day : Day) : Option DstChange :=
  if day = 10 then some .spring else if day = 20 then some .fall else none

def summerOffset (day : Day) : Int := if 10 < day ∧ day ≤ 20 then HOUR else 0

def summer : TzInfo where
  utcoffset w := offsetOn (summerOffset w.date) (summerChange w.date) w.time w.fold
  fromutc u :=
    let back := 20 * DAY + HOUR
    let shifted := if 10 * DAY + 2 * HOUR ≤ u ∧ u < back then u + HOUR else u
    { toLocal shifted none with fold := decide (back ≤ u ∧ u < back + HOUR) }

theorem documented_summer : Documented (some summer) := by
  rintro zone ⟨⟩
  refine ⟨fun u => ?_, summerOffset, summerChange, fun day => ?_, fun w => rfl⟩
  · unfold summer toUtc WallTime.ticks toLocal summerOffset summerChange offsetOn DAY HOUR MINUTE
    simp only [decide_eq_false_iff_not, Instant, Day] at u ⊢
    split_ifs <;> (try dsimp only) <;> omega
  · unfold summerOffset summerChange offsetAfter
    split_ifs <;> lia

/-- A quarter to three is in the missing hour: the start waits for three o'clock. -/
theorem windowSide_defers_summer :
    windowSide (some (⟨2, 45, by decide, by decide⟩, ⟨3, 45, by decide, by decide⟩)) (some summer) (10 * DAY + HOUR) =
        .ok (.defer (10 * DAY + 2 * HOUR)) ∧
      ∀ earlier, 10 * DAY + HOUR < earlier → earlier < 10 * DAY + 2 * HOUR →
        windowSide (some (⟨2, 45, by decide, by decide⟩, ⟨3, 45, by decide, by decide⟩)) (some summer) earlier ≠
          .ok .inside := by
  have hdefer : windowSide (some (⟨2, 45, by decide, by decide⟩, ⟨3, 45, by decide, by decide⟩)) (some summer)
      (10 * DAY + HOUR) = .ok (.defer (10 * DAY + 2 * HOUR)) := by decide +kernel
  exact ⟨hdefer, ((windowSide_defers documented_summer _ _ _).2 _ hdefer).2.2⟩

end Dsl41.Timing
