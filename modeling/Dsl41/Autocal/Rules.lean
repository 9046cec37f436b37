import Dsl41.Autocal.Dates
import Dsl41.Infra.Result

/-!
# Date conditions

The rules of an extended calendar: their tokens as day predicates, and the parser of one rule.
`&` and `|` are flat and left to right.
-/

namespace Dsl41.Autocal

open Timing
open Conditions (isDecimal intOf)

/-- A definition that the interpreter refuses. -/
inductive CalendarRuleError
  | badRow (calendar row : String)
  | ordinalOutside (token : String) (n lo hi : Nat)
  | anchorOutside (token : String) (n : Nat)
  | defective (token : String)
  | unknownToken (token : String)
  | unexpectedCharacter (rule : String) (c : Char)
  | nesting (rule : String)
  | dangling (rule : String)
  | missingParen (rule : String)
  | unexpected (rule token : String)
  | expectedOperator (rule token : String)
  | trailing (rule : String)
  | noValidDay (category code : String)
  | workday (part : String)
  | action (key value : String)
  | noCycle (name : String)
  | badPeriod (name start stop : String)
  | periodOrder (name : String)
  | noPeriods (name : String)
  | standard (name : String)
  | unrecognized (attrs : List String)
  | noHolcal (name : String)
  | extendedHolcal (name : String)
  | holidayAction
  | adjust (value : String)
  | adjustOutside (n : Int)
  | cyccalRequired
  | allNonWorkday
deriving DecidableEq

/-! ## Tokens -/

/-- What a compiled calendar evaluates its tokens against. -/
structure Ctx where
  workdays : List Nat
  holidays : List Day
  periods : List (Day × Day)
  wekr_first_week : WekrFirstWeek

abbrev Pred := Day → Ctx → Bool

/-- `_period_of`: the first period that the day is in, with its place from 1. -/
def periodOf (day : Day) (ctx : Ctx) : Option (Nat × Day × Day) :=
  (ctx.periods.zipIdx 1).findSome? fun ((start, stop), idx) =>
    if start ≤ day ∧ day ≤ stop then some (idx, start, stop) else none

/-- `_period_chunk`: the week of the period, and its last one. -/
def periodChunk (day : Day) (ctx : Ctx) : Option (Int × Int) :=
  (periodOf day ctx).map fun (_, start, stop) => ((day - start) / 7 + 1, (stop - start) / 7 + 1)

/-- `_period_matching`. -/
def periodMatching (day : Day) (ctx : Ctx) (keep : Day → Bool) : Option (List Day) :=
  (periodOf day ctx).map fun (_, start, stop) => daysFrom start (stop - start + 1) keep

/-- A token; its base is the day set without the exclusion flip, empty outside the cycle's periods when
the token is cycle-scoped. -/
structure Token where
  base : Pred
  exclusive : Bool
  cycle_scoped : Bool
  within : cycle_scoped = true → ∀ d c, periodOf d c = none → base d c = false

/-- A token of the calendar at large. -/
def Token.free (base : Pred) (exclusive : Bool) : Token := ⟨base, exclusive, false, nofun⟩

/-- A token of the cycle's periods. -/
def Token.cyclic (base : Pred) (h : ∀ d c, periodOf d c = none → base d c = false) (exclusive : Bool) : Token :=
  ⟨base, exclusive, true, fun _ => h⟩

def isWorkday (ctx : Ctx) (day : Day) : Bool := decide (weekday day ∈ ctx.workdays)

/-- `_workday_seq`: the month's workdays. -/
def workdaySeq (day : Day) (ctx : Ctx) : List Day := monthMatching day (isWorkday ctx)

def dayNames : List String := ["mon", "tue", "wed", "thu", "fri", "sat", "sun"]

def monthNames : List String := ["jan", "feb", "mar", "apr", "may", "jun", "jul", "aug", "sep", "oct", "nov", "dec"]

/-- A day of the working week, Monday to Friday. -/
def isWeekday (day : Day) : Bool := decide (weekday day < 5)

/-- The bare keywords, each with its token up to the exclusion prefix. -/
def KEYWORDS : List (String × (Bool → Token)) := [
  ("daily", .free fun _ _ => true),
  ("workdays", .free fun d c => isWorkday c d && !decide (d ∈ c.holidays)),
  ("weekdays", .free fun d c => isWeekday d && !decide (d ∈ c.holidays)),
  ("fomwork", .free fun d c => (workdaySeq d c).head? == some d),
  ("eomwork", .free fun d c => (workdaySeq d c).getLast? == some d),
  ("fomweek", .free fun d _ => (monthMatching d isWeekday).head? == some d),
  ("eomweek", .free fun d _ => (monthMatching d isWeekday).getLast? == some d),
  ("fom", .free fun d _ => dayOfMonth d == 1),
  ("eom", .free fun d _ => dayOfMonth d == monthDays d),
  ("cycle", .cyclic (fun d c => (periodOf d c).isSome) fun _ _ h => by rw [h]; rfl)] ++
  monthNames.zipIdx.map (fun (name, i) => (name, .free fun d _ => monthOf d == i + 1)) ++
  dayNames.zipIdx.map fun (name, i) => (name, .free fun d _ => weekday d == i)

/-! ## Token families -/

section Families

variable (raw : String)

/-- `_ord_in`. -/
def ordIn (digits : List Char) (lo hi : Nat) : Except CalendarRuleError Nat :=
  let n := intOf digits
  if lo ≤ n ∧ n ≤ hi then .ok n else .error (.ordinalOutside raw n lo hi)

/-- `_ordinal`: the number of a suffix, and whether it counts from the back. -/
def ordinalOf (letter : Char) (digits : List Char) (lo hi : Nat) : Except CalendarRuleError (Nat × Bool) := do
  let last := digits = ['l']
  let n ← if last then pure 1 else ordIn raw digits lo hi
  return (n, letter = 'm' || last)

/-- Whether a token excludes: by its prefix, or by the letter of its suffix. -/
def excludes (exclusive : Bool) (letter : Char) : Bool := exclusive || letter = 'x'

variable (letter : Char) (digits : List Char) (exclusive : Bool)

def bWorkd : Except CalendarRuleError Token := do
  let (n, back) ← ordinalOf raw letter digits 1 31
  return .free (fun d c => nthOf (workdaySeq d c) n back == some d) exclusive

def bWeekd : Except CalendarRuleError Token := do
  let (n, back) ← ordinalOf raw letter digits 1 7
  let place : Day → Int := fun d => d - weekStart d (jan1Anchor d)
  return .free (fun d _ => if back then place d == 7 - (n : Int) else place d == (n : Int) - 1) (excludes exclusive letter)

/-- The anchor of a WEKR token: a day name, or a digit from 1. -/
def wekrAnchor (text : List Char) : Except CalendarRuleError Nat :=
  match dayNames.idxOf? (String.ofList text) with
  | some i => .ok i
  | none =>
    let number := intOf text
    if 1 ≤ number ∧ number ≤ 7 then .ok (number - 1) else .error (.anchorOutside raw number)

def bWekr (anchor_text : List Char) : Except CalendarRuleError Token := do
  let anchor ← wekrAnchor raw anchor_text
  let (n, back) ← ordinalOf raw letter digits 1 53
  let wekr : Pred := fun d c =>
    let week := wekrWeek d anchor c.wekr_first_week
    if !back then week == n
    else decide (1 ≤ week) && week == wekrWeek (december31 d) anchor c.wekr_first_week - n + 1
  return .free wekr (excludes exclusive letter)

def bWeekParity : Except CalendarRuleError Token :=
  return .free (fun d _ => weekNumber d % 2 == if letter = 'e' then 0 else 1) exclusive

def bWeek : Except CalendarRuleError Token := do
  let (n, back) ← ordinalOf raw letter digits 1 53
  return .free (fun d _ => if back then weekNumber d == yearWeeks d - n + 1 else weekNumber d == n)
    (excludes exclusive letter)

def bMnthd : Except CalendarRuleError Token := do
  let (n, back) ← ordinalOf raw letter digits 1 31
  return .free (fun d _ => if back then dayOfMonth d == monthDays d - n + 1 else dayOfMonth d == n)
    (excludes exclusive letter)

def bMonthOrdinal (month : Nat) : Except CalendarRuleError Token := do
  let (n, back) ← ordinalOf raw letter digits 1 31
  let day : Day → Int := fun d => if back then monthDays d - n + 1 else n
  return .free (fun d _ => monthOf d == month && dayOfMonth d == day d) exclusive

def bDayOrdinal (wd : Nat) : Except CalendarRuleError Token := do
  let (n, back) ← ordinalOf raw letter digits 1 5
  let same : Day → Bool := fun d => weekday d == wd
  return .free (fun d _ => same d && nthOf (monthMatching d same) n back == some d) exclusive

def bCycl : Except CalendarRuleError Token := do
  let (n, back) ← ordinalOf raw letter digits 1 365
  let cycl : Pred := fun d c =>
    match periodOf d c with
    | none => false
    | some (_, start, stop) => (if back then stop - d + 1 else d - start + 1) == n
  return .cyclic cycl (fun _ _ h => by simp only [cycl, h]) (excludes exclusive letter)

def bCycp : Except CalendarRuleError Token := do
  let n ← ordIn raw digits 1 30
  return .cyclic (fun d c => (periodOf d c).any fun hit => hit.1 == n) (fun _ _ h => by rw [h]; rfl) exclusive

def bCweekParity : Except CalendarRuleError Token :=
  let cweek : Pred := fun d c =>
    match periodChunk d c with
    | none => false
    | some (wk, last) => if letter = 'l' then wk == last else wk % 2 == if letter = 'e' then 0 else 1
  return .cyclic cweek (fun _ _ h => by simp only [cweek, periodChunk, h, Option.map_none]) exclusive

def bCweek : Except CalendarRuleError Token := do
  let (n, back) ← ordinalOf raw letter digits 1 53
  let cweek : Pred := fun d c =>
    match periodChunk d c with
    | none => false
    | some (wk, last) => wk == if back then last - n + 1 else n
  return .cyclic cweek (fun _ _ h => by simp only [cweek, periodChunk, h, Option.map_none]) (excludes exclusive letter)

def bCwrk : Except CalendarRuleError Token := do
  let (n, back) ← ordinalOf raw letter digits 1 365
  let cwrk : Pred := fun d c =>
    match periodMatching d c (isWorkday c) with
    | none => false
    | some seq => nthOf seq n back == some d
  return .cyclic cwrk (fun _ _ h => by simp only [cwrk, periodMatching, h, Option.map_none]) (excludes exclusive letter)

def bCddd (wd : Nat) : Except CalendarRuleError Token := do
  let (n, back) ← ordinalOf raw letter digits 1 53
  let same : Day → Bool := fun d => weekday d == wd
  let cddd : Pred := fun d c =>
    if !same d then false
    else
      match periodMatching d c same with
      | none => false
      | some seq => nthOf seq n back == some d
  return .cyclic cddd (fun _ _ h => by simp only [cddd, periodMatching, h, Option.map_none, ite_self]) exclusive

end Families

/-! ## Reading a token -/

/-- `([…])(\d+|l)` up to the end: the letter and the digits; `l` stands where the family has it. -/
def suffix (letters : List Char) (last : Bool) : List Char → Option (Char × List Char)
  | letter :: digits =>
    if letter ∈ letters ∧ (last = true ∧ digits = ['l'] ∨ digits ≠ [] ∧ digits.all isDecimal) then some (letter, digits)
    else none
  | [] => none

def after (name : String) (body : List Char) : Option (List Char) := List.isPrefixOf? name.toList body

/-- One of the names, by its place, and what follows it. -/
def nameThen (names : List String) (body : List Char) : Option (Nat × List Char) :=
  names.zipIdx.findSome? fun (name, i) => (after name body).map fun rest => (i, rest)

/-- What builds a token once its family is known: from the raw text and the exclusion prefix. -/
abbrev Builder := String → Bool → Except CalendarRuleError Token

/-- `cwek` in its garbled forms, and `workdx` with a number. -/
def isDefective (tok : List Char) : Bool :=
  (match after "workdx" tok with
    | some digits => !digits.isEmpty && digits.all Char.isDigit
    | none => false) ||
  match after "cwek" tok with
  | some ['#', c] => c.isDigit || c = 'l'
  | some ['m', c] => c.isDigit
  | some ['x', c] => c.isDigit
  | _ => false

/-- The families, each by what it reads of a body. -/
def FAMILIES : List (List Char → Option Builder) :=
  let counted (last : Bool) (name : String) (letters : List Char)
      (build : String → Char → List Char → Bool → Except CalendarRuleError Token) : List Char → Option Builder := fun body =>
    ((after name body).bind (suffix letters last)).map fun (letter, digits) raw exclusive => build raw letter digits exclusive
  let plain := counted true
  let parity (name : String) (letters : List Char) (build : Char → Bool → Except CalendarRuleError Token) :
      List Char → Option Builder := fun body =>
    match after name body with
    | some ['#', which] => if which ∈ letters then some fun _ exclusive => build which exclusive else none
    | _ => none
  [plain "workd" ['#', 'm'] bWorkd,
    plain "weekd" ['#', 'm', 'x'] bWeekd,
    fun body =>
      (after "wekr" body).bind fun rest =>
        let anchored : Option (List Char × List Char) :=
          match rest with
          | c :: more => if isDecimal c then some ([c], more) else (nameThen dayNames rest).map fun (_, more) => (rest.take 3, more)
          | [] => none
        anchored.bind fun (anchor, more) =>
          (suffix ['#', 'm', 'x'] true more).map fun (letter, digits) raw exclusive => bWekr raw letter digits exclusive anchor,
    parity "week" ['e', 'o'] bWeekParity,
    plain "week" ['#', 'm', 'x'] bWeek,
    plain "mnthd" ['#', 'm', 'x'] bMnthd,
    fun body =>
      (nameThen monthNames body).bind fun (i, rest) =>
        (suffix ['#', 'm'] true rest).map fun (letter, digits) raw exclusive => bMonthOrdinal raw letter digits exclusive (i + 1),
    fun body =>
      (nameThen dayNames body).bind fun (i, rest) =>
        (suffix ['#', 'm'] true rest).bind fun (letter, digits) =>
          if digits.length = 1 then some fun raw exclusive => bDayOrdinal raw letter digits exclusive i else none,
    plain "cycl" ['#', 'm', 'x'] bCycl,
    counted false "cycp" ['#'] (fun raw _ digits exclusive => bCycp raw digits exclusive),
    parity "cweek" ['e', 'o', 'l'] bCweekParity,
    counted false "cweek" ['#', 'm', 'x'] bCweek,
    plain "cwrk" ['#', 'm', 'x'] bCwrk,
    fun body =>
      ((after "c" body).bind (nameThen dayNames)).bind fun (i, rest) =>
        (suffix ['#', 'm'] true rest).map fun (letter, digits) raw exclusive => bCddd raw letter digits exclusive i]

/-- `_parse_token`. -/
def parseToken (raw : String) : Except CalendarRuleError Token :=
  let tok := raw.toList.map Char.toLower
  if isDefective tok then .error (.defective raw)
  else
    let exclusive := tok.head? = some 'x'
    let body := if exclusive then tok.tail else tok
    match KEYWORDS.lookup (String.ofList body) with
    | some token => .ok (token exclusive)
    | none =>
      match FAMILIES.findSome? fun family => family body with
      | some build => build raw exclusive
      | none => .error (.unknownToken raw)

end Dsl41.Autocal
