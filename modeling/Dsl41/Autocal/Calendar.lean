import Mathlib.Data.Finset.Max
import Mathlib.Data.String.Basic
import Dsl41.Autocal.Parser
import Dsl41.Infra.Dict
import Dsl41.Infra.Digraph
import Dsl41.Oracle.Catalog

/-!
# Compiled calendars

An extended calendar ready to generate days: candidates that its rules include, disposed of one by
one and shifted. `compileCalendar` reads it from a definition.
-/

namespace Dsl41.Autocal

open Infra Timing

/-! ## Actions -/

inductive Category
  | non_workday | holiday
deriving DecidableEq

def Category.text : Category → String
  | .non_workday => "non_workday"
  | .holiday => "holiday"

inductive Action
  | o | s | n | w | p
deriving DecidableEq

def Action.code : Action → String
  | .o => "o"
  | .s => "s"
  | .n => "n"
  | .w => "w"
  | .p => "p"

/-- The replacing codes: the others never move a date. -/
def Action.replaces (a : Action) : Bool := a ∈ [.n, .w, .p]

def WALK_CAP : Nat := 366

def MARGIN : Int := 400

def SCAN_YEARS : Int := 60

/-- The last day of a calendar whose rules are all cycle-scoped: the margin past its last period. -/
def boundOf (includes : List Node) (periods : List (Day × Day)) : Option Day :=
  if includes.all fun node => node.tokens.all Token.cycle_scoped then
    ((periods.map Prod.snd).max?).map (· + MARGIN)
  else none

/-- An extended calendar, ready to generate days. -/
structure CompiledCalendar where
  name : String
  ctx : Ctx
  includes : List Node
  excludes : List Node
  non_workday : Option Action
  holiday : Option Action
  adjust : Int
  bound : Option Day
  adjust_le : adjust.natAbs ≤ 9
  bound_eq : bound = boundOf includes ctx.periods

namespace CompiledCalendar

variable (cal : CompiledCalendar)

/-- `_included`. -/
def included (day : Day) : Bool :=
  if !cal.includes.any fun node => node.eval day cal.ctx then false
  else !cal.excludes.any fun node => node.eval day cal.ctx

/-- The loop of `_walk`. -/
def walk (step : Int) (holiday_free : Bool) (code : Action) (category : Category) :
    Nat → Day → Except CalendarRuleError Day
  | 0, _ => .error (.noValidDay category.text code.code)
  | n + 1, probe =>
    let probe := probe + step
    if weekday probe ∉ cal.ctx.workdays then walk step holiday_free code category n probe
    else if holiday_free = true ∧ probe ∈ cal.ctx.holidays then walk step holiday_free code category n probe
    else .ok probe

/-- `_replace`: the target of one excluded date; only the replacing codes come here. -/
def replace (category : Category) (code : Action) (day : Day) : Except CalendarRuleError Day :=
  if code = .n ∧ category = .holiday then .ok (day + 1)
  else if code = .n then cal.walk 1 true code category WALK_CAP day
  else cal.walk (if code = .w then 1 else -1) (decide (category = .holiday)) code category WALK_CAP day

/-- What `_dispose` makes of one candidate: a day, or none. -/
def disposeDay (day : Day) : Except CalendarRuleError (Option Day) :=
  match cal.holiday, decide (day ∈ cal.ctx.holidays) with
  | some action, true => if action.replaces then some <$> cal.replace .holiday action day else .ok (some day)
  | holiday, _ =>
    if holiday = some .o then .ok none
    else
      let is_non_workday := weekday day ∉ cal.ctx.workdays ∨ day ∈ cal.ctx.holidays
      match cal.non_workday with
      | some .o => .ok (if is_non_workday then some day else none)
      | some action =>
        if action.replaces = true ∧ is_non_workday then some <$> cal.replace .non_workday action day else .ok (some day)
      | none => .ok (some day)

/-- `_dispose`. -/
def dispose (candidates : List Day) : Except CalendarRuleError (Finset Day) :=
  candidates.foldlM (fun out day => do
    match ← cal.disposeDay day with
    | some target => return insert target out
    | none => return out) ∅

/-- The days of a window and its margin that the rules include. -/
def candidates (lo hi : Day) : List Day := daysFrom (lo - MARGIN) (hi - lo + 2 * MARGIN + 1) cal.included

/-- The final days within a window. -/
def daysBetween (lo hi : Day) : Except CalendarRuleError (Finset Day) :=
  if hi < lo then .ok ∅
  else do
    let final ← cal.dispose (cal.candidates lo hi)
    return (final.image fun day => day + cal.adjust).filter fun day => lo ≤ day ∧ day ≤ hi

/-- The windows of `first_on_or_after`, each a year; as many turns as there are days. -/
def firstFrom (day cap : Day) : Nat → Day → Except CalendarRuleError (Option Day)
  | 0, _ => .ok none
  | n + 1, cur =>
    if cur ≤ cap then do
      let window_end := min (cur + 365) cap
      let hits := (← cal.daysBetween cur window_end).filter fun d => day ≤ d
      if h : hits.Nonempty then return some (hits.min' h)
      else firstFrom day cap n (window_end + 1)
    else .ok none

/-- Where a scan from a day ends. -/
def cap (day : Day) : Day := cal.bound.getD (day + SCAN_YEARS * 366)

/-- `first_on_or_after`. -/
def firstOnOrAfter (day : Day) : Except CalendarRuleError (Option Day) :=
  cal.firstFrom day (cal.cap day) (cal.cap day - day + 1).toNat day

end CompiledCalendar

/-! ## Compiling -/

inductive CalendarKind
  | standard | extended
deriving DecidableEq

structure CalendarIR where
  name : String
  kind : CalendarKind := .extended
  attrs : Dict String String := ∅
  conditions : List String := []
  dates : List String := []

/-- The calendars, and the periods of the cycles. -/
structure Catalog where
  calendars : Dict String CalendarIR := ∅
  cycles : Dict String (List (String × String)) := ∅

def CALENDAR_ATTRS : List String := ["description", "workday", "non_workday", "holiday", "holcal", "cyccal", "adjust"]

/-- An attribute without its blanks; a missing one is empty. -/
def attr (cal : CalendarIR) (key : String) : List Char := Jil.strip ((cal.attrs.get? key).getD "").toList

/-- `standard_rows`. -/
def standardRows (cal : CalendarIR) : Except CalendarRuleError (List (Day × Clock)) :=
  cal.dates.mapM fun row =>
    match dateRow row.toList with
    | some tick => .ok tick
    | none => .error (.badRow cal.name row)

def dayCodes : List String := ["mo", "tu", "we", "th", "fr", "sa", "su"]

/-- `_parse_workday`: all days, a mask of the week, or codes. -/
def parseWorkday (text : List Char) : Except CalendarRuleError (List Nat) :=
  if String.ofList text = "all" then .ok (List.range 7)
  else if text.length = 7 ∧ text.all (fun c => c = 'x' || c = '.') then
    .ok ((List.range 7).filter fun i => text[i]? = some 'x')
  else
    (Jil.commaParts text).mapM fun part =>
      match dayCodes.idxOf? (String.ofList part), dayNames.idxOf? (String.ofList part) with
      | some i, _ => .ok i
      | none, some i => .ok i
      | none, none => .error (.workday (String.ofList part))

/-- `_parse_action`. -/
def parseAction (key : Category) (text : List Char) : Except CalendarRuleError (Option Action) :=
  match text with
  | [] => .ok none
  | ['o'] => .ok (some .o)
  | ['s'] => .ok (some .s)
  | ['n'] => .ok (some .n)
  | ['w'] => .ok (some .w)
  | ['p'] => .ok (some .p)
  | text => .error (.action key.text (String.ofList text))

/-- `_parse_periods`. -/
def parsePeriods (name : String) (catalog : Catalog) : Except CalendarRuleError (List (Day × Day)) := do
  match catalog.cycles.get? name with
  | none => throw (.noCycle name)
  | some rows =>
    let periods ← rows.mapM fun (start_raw, stop_raw) =>
      match strptimeDate start_raw.toList, strptimeDate stop_raw.toList with
      | some start, some stop => if stop < start then .error (.periodOrder name) else .ok (start, stop)
      | _, _ => .error (.badPeriod name start_raw stop_raw)
    if periods = [] then throw (.noPeriods name)
    return periods

/-- The holidays that a calendar names. -/
def holidaysOf (catalog : Catalog) (holcal : List Char) : Except CalendarRuleError (List Day) := do
  if holcal = [] then return []
  match catalog.calendars.get? (Jil.unquoteJilValue (String.ofList holcal)) with
  | none => throw (.noHolcal (String.ofList holcal))
  | some hol =>
    if hol.kind ≠ .standard then throw (.extendedHolcal (String.ofList holcal))
    return (← standardRows hol).map Prod.fst

/-- A shift of at most nine days. -/
def parseAdjust (text : List Char) : Except CalendarRuleError {n : Int // n.natAbs ≤ 9} :=
  if text = [] then .ok ⟨0, by decide⟩
  else
    match Oracle.parseInt (String.ofList text) with
    | none => .error (.adjust (String.ofList text))
    | some n => if h : n.natAbs ≤ 9 then .ok ⟨n, h⟩ else .error (.adjustOutside n)

/-- The rules of a calendar that include, and what the ones that only exclude take away. -/
def splitRules : List Node → List Node × List Node
  | [] => ([], [])
  | node :: rest =>
    let (includes, excludes) := splitRules rest
    match node.exclusionBase with
    | some base => (includes, base :: excludes)
    | none => (node :: includes, excludes)

/-- The documented default, daily. -/
def dailyRule : Node := .tok (.free (fun _ _ => true) false)

/-- `compile_calendar`. -/
def compileCalendar (cal : CalendarIR) (catalog : Catalog) (wekr_first_week : WekrFirstWeek) :
    Except CalendarRuleError CompiledCalendar := do
  if cal.kind ≠ .extended then throw (.standard cal.name)
  let unknown := cal.attrs.keys.filter fun key => key ∉ CALENDAR_ATTRS
  if unknown ≠ [] then throw (.unrecognized (sortedList unknown))
  let lower := List.map Char.toLower
  let workdays ← if attr cal "workday" = [] then pure (List.range 5) else parseWorkday (lower (attr cal "workday"))
  let non_workday ← parseAction .non_workday (lower (attr cal "non_workday"))
  let holiday ← parseAction .holiday (lower (attr cal "holiday"))
  let holidays ← holidaysOf catalog (attr cal "holcal")
  if holiday.isSome ∧ holiday ≠ some .s ∧ attr cal "holcal" = [] then throw .holidayAction
  let adjust ← parseAdjust (attr cal "adjust")
  let rules := cal.conditions.flatMap fun line => (Jil.commaParts line.toList).filter (· ≠ [])
  let nodes ← rules.mapM fun rule => parseRule (String.ofList rule)
  let (found, excludes) := splitRules nodes
  let includes := if found = [] then [dailyRule] else found
  let needs_cycle := (includes ++ excludes).any fun node => node.tokens.any Token.cycle_scoped
  let cyccal := attr cal "cyccal"
  if needs_cycle = true ∧ cyccal = [] then throw .cyccalRequired
  let periods ← if cyccal = [] then pure [] else parsePeriods (Jil.unquoteJilValue (String.ofList cyccal)) catalog
  let walks : Option Action → Bool := fun action => action = some .w || action = some .p
  if (walks non_workday || walks holiday) = true ∧ workdays = [] then throw .allNonWorkday
  return {
    name := cal.name
    ctx := { workdays, holidays, periods, wekr_first_week }
    includes, excludes, non_workday, holiday
    adjust := adjust.1
    bound := boundOf includes periods
    adjust_le := adjust.2
    bound_eq := rfl }

end Dsl41.Autocal
