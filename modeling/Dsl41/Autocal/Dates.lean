import Mathlib.Data.Finset.Max
import Dsl41.Conditions.Syntax
import Dsl41.Jil.Typed
import Dsl41.Timing.Plan

/-!
# Dates

The proleptic Gregorian calendar over ordinals: a day is its number, and its year, month and day of
the month are read off. Weeks and months are runs of such numbers.
-/

namespace Dsl41.Autocal

open Timing

/-! ## Years and months -/

/-- The days before January 1 of a year, from the first day of year 1 on. -/
def daysBeforeYear (year : Int) : Int := (year - 1) * 365 + (year - 1) / 4 - (year - 1) / 100 + (year - 1) / 400

def isLeap (year : Int) : Bool := decide (year % 4 = 0) && (decide (year % 100 ≠ 0) || decide (year % 400 = 0))

def daysInMonth (year : Int) (month : Nat) : Int :=
  if month = 2 then if isLeap year then 29 else 28
  else if month ∈ [4, 6, 9, 11] then 30
  else 31

def daysBeforeMonth (year : Int) : Nat → Int
  | 0 => 0
  | month + 1 => daysBeforeMonth year month + if month = 0 then 0 else daysInMonth year month

/-- `date(year, month, day)`. -/
def ordinal (year : Int) (month : Nat) (day : Int) : Day := daysBeforeYear year + daysBeforeMonth year month + day

/-- `day.year`. -/
def yearOf (day : Day) : Int :=
  let n := day - 1
  let n400 := n / 146097
  let n100 := n % 146097 / 36524
  let n4 := n % 146097 % 36524 / 1461
  let n1 := n % 146097 % 36524 % 1461 / 365
  let year := n400 * 400 + n100 * 100 + n4 * 4 + n1 + 1
  -- the last day of a leap year, or of four centuries
  if n1 = 4 ∨ n100 = 4 then year - 1 else year

/-- The days of the year before a day. -/
def dayOfYear (day : Day) : Int := day - ordinal (yearOf day) 1 1

/-- `day.month`. -/
def monthOf (day : Day) : Nat :=
  (((List.range 12).map (· + 1)).find? fun month => dayOfYear day < daysBeforeMonth (yearOf day) (month + 1)).getD 12

/-- `day.day`. -/
def dayOfMonth (day : Day) : Int := dayOfYear day - daysBeforeMonth (yearOf day) (monthOf day) + 1

example : (yearOf 738000, monthOf 738000, dayOfMonth 738000) = (2021, 7, 29) := by decide

/-! ## Runs of days -/

/-- The days of a range that pass, in order. -/
def daysFrom (first : Day) (count : Int) (keep : Day → Bool) : List Day :=
  ((List.range count.toNat).map fun offset : Nat => first + (offset : Int)).filter keep

/-- `_month_days`. -/
def monthDays (day : Day) : Int := daysInMonth (yearOf day) (monthOf day)

/-- `_month_matching`. -/
def monthMatching (day : Day) (keep : Day → Bool) : List Day :=
  daysFrom (day - dayOfMonth day + 1) (monthDays day) keep

/-- `_nth_of`: the nth from the front, or from the back. -/
def nthOf (seq : List Day) (n : Nat) (back : Bool) : Option Day :=
  if back then if n ≤ seq.length then seq[seq.length - n]? else none
  else if 1 ≤ n then seq[n - 1]? else none

/-- `_week_start`. -/
def weekStart (day : Day) (anchor : Nat) : Day := day - ((weekday day : Int) - anchor) % 7

def january1 (day : Day) : Day := ordinal (yearOf day) 1 1

def december31 (day : Day) : Day := ordinal (yearOf day) 12 31

/-- `_jan1_anchor`: weeks begin on the weekday of January 1. -/
def jan1Anchor (day : Day) : Nat := weekday (january1 day)

/-- `_week_number`. -/
def weekNumber (day : Day) : Int := (day - weekStart (january1 day) (jan1Anchor day)) / 7 + 1

inductive WekrFirstWeek
  | firstFull | partialWeek
deriving DecidableEq

/-- `_wekr_week`: the week of the year from an anchor day on; 0 before week 1. -/
def wekrWeek (day : Day) (anchor : Nat) (first_week : WekrFirstWeek) : Int :=
  let number := (day - weekStart (january1 day) anchor) / 7 + 1
  if first_week = .firstFull ∧ weekday (january1 day) ≠ anchor then number - 1 else number

/-- `_year_weeks`. -/
def yearWeeks (day : Day) : Int := (december31 day - january1 day) / 7 + 1

/-! ## Written dates -/

open Conditions (isDecimal intOf)

def digitBetween (lo hi c : Char) : Bool := lo ≤ c ∧ c ≤ hi

/-- `%m`. -/
def monthField : List Char → Option Nat
  | [c] => if digitBetween '1' '9' c then some (intOf [c]) else none
  | [a, b] =>
    if a = '1' ∧ digitBetween '0' '2' b ∨ a = '0' ∧ digitBetween '1' '9' b then some (intOf [a, b]) else none
  | _ => none

/-- `%d`. -/
def dayField : List Char → Option Nat
  | [c] => if digitBetween '1' '9' c then some (intOf [c]) else none
  | [a, b] =>
    if a = '3' ∧ digitBetween '0' '1' b ∨ digitBetween '1' '2' a ∧ isDecimal b ∨ a = '0' ∧ digitBetween '1' '9' b then
      some (intOf [a, b])
    else if a = ' ' ∧ digitBetween '1' '9' b then some (intOf [b])
    else none
  | _ => none

/-- `%Y`. -/
def yearField (l : List Char) : Option Nat := if l.length = 4 ∧ l.all isDecimal then some (intOf l) else none

/-- `strptime` of `%m/%d/%Y`. -/
def strptimeDate (text : List Char) : Option Day :=
  match text.splitOn '/' with
  | [m, d, y] => do
    let month ← monthField m
    let day ← dayField d
    let year ← yearField y
    if 1 ≤ year ∧ (day : Int) ≤ daysInMonth year month then some (ordinal year month day) else none
  | _ => none

/-- `%H`. -/
def hourField : List Char → Option Nat
  | [c] => if isDecimal c then some (intOf [c]) else none
  | [a, b] =>
    if a = '2' ∧ digitBetween '0' '3' b ∨ digitBetween '0' '1' a ∧ isDecimal b then some (intOf [a, b]) else none
  | _ => none

/-- `%M`, and the seconds of a time. -/
def minuteField : List Char → Option Nat
  | [c] => if isDecimal c then some (intOf [c]) else none
  | [a, b] => if digitBetween '0' '5' a ∧ isDecimal b then some (intOf [a, b]) else none
  | _ => none

/-- The time tail of a date row: its seconds are dropped. -/
def rowTime (text : List Char) : Option Clock :=
  match text.splitOn ':' with
  | [h, m] => do return (← hourField h, ← minuteField m)
  | [h, m, s] => do
    let hour ← hourField h
    let minute ← minuteField m
    let _ ← minuteField s
    return (hour, minute)
  | _ => none

/-- `split()`: the words between blanks. -/
def words : List Char → List (List Char)
  | [] => []
  | c :: rest =>
    if Jil.isSpace c then words rest
    else
      match rest, words rest with
      | d :: _, word :: more => if Jil.isSpace d then [c] :: word :: more else (c :: word) :: more
      | _, more => [c] :: more

/-- One date row: its day and its time, midnight for a bare one. -/
def dateRow (row : List Char) : Option (Day × Clock) :=
  match words row with
  | [d] => (strptimeDate d).map fun day => (day, (0, 0))
  | [d, t] => do return (← strptimeDate d, ← rowTime t)
  | _ => none

end Dsl41.Autocal
