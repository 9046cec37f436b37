import Dsl41.Runner.Dispatch
import Mathlib.Data.List.Sort

/-!
# The open table

What the store's records leave open: attempts with no outcome, pending dispatches, plans with an
unfinished step and the update in progress. It is a fold over the records in seq order, so a
snapshot carries it and a start rebuilds it from the records after the snapshot.
-/

namespace Dsl41.Runner

open Infra Infra.Json Canon

/-- A dispatched attempt the store has not closed. -/
structure OpenAttempt where
  attempt : Str
  job : Str
  run_number : Int
  ordinal : Int
  spool : Value
  seq : Int
  started_at : Str
  env : Value
  /-- The cause of the stop this attempt replaced. -/
  after : Value
  /-- The cause of the stop this attempt was taking when the engine left it unsettled. -/
  stop : Option Str
  /-- Its outcome is committed while its ladder still runs. -/
  closing : Bool
  outcome : Option Str
  dispatch : Value

/-- A start decision with no dispatch yet. -/
structure PendingDispatch where
  seq : Int
  job : Str
  run_number : Int
  scheduled_at : Str
deriving DecidableEq

/-- A follow-up plan with a step not yet done. -/
structure OpenPlan where
  seq : Int
  attempt : Str
  job : Str
  run_number : Int
  plan : Str
  steps : List Value
  done : Dict Int Value
  /-- The end its outcome record holds. -/
  ended : Option Str

/-- Whether every step is done. -/
def OpenPlan.finished (p : OpenPlan) : Bool :=
  (List.range p.steps.length).all fun i => (p.done.get? i).isSome

structure OpenTable where
  attempts : Dict Str OpenAttempt
  dispatches : Dict Str Value
  pending : Dict Int PendingDispatch
  plans : Dict Str OpenPlan
  /-- The update in STOPPING. -/
  update : Option Value
  /-- The end of the outcome just noted, which the plan committed with it carries. -/
  ended : Option (Str × Option Str)

namespace OpenTable

def empty : OpenTable where
  attempts := ∅
  dispatches := ∅
  pending := ∅
  plans := ∅
  update := none
  ended := none

variable (L : Library) (t : OpenTable)

/-! ## The fold -/

def stringOf (value : Value) : Except Error Str :=
  match value with
  | .str s => .ok s
  | _ => .error .typeError

def noteDispatch (seq : Int) (body : Value) : Except Error OpenTable := do
  let job ← stringOf (← item body (name "job"))
  checkDispatchSeq body seq (t.dispatches.get? job) false
  let attempt ← stringOf (← item body (name "attempt"))
  let run_number ← pyInt L (← item body (name "run_number"))
  let ordinal ← pyInt L ((Dict.getIn (name "ordinal") (items body)).getD (.int 1))
  let started_at ← item body (name "started_at")
  let env ← pyDict (orEmpty (dictGet body (name "env")))
  let held := withItem body (name "seq") (.int seq)
  return { t with
    dispatches := t.dispatches.set job held
    attempts := t.attempts.set attempt
      { attempt, job, run_number, ordinal, spool := dictGet body (name "spool"), seq
        started_at := pyStr L started_at, env, after := dictGet body (name "after"), stop := none
        closing := false, outcome := none, dispatch := held }
    pending :=
      match wireInt? (dictGet body (name "discharges")) with
      | some discharged => t.pending.erase discharged
      | none => t.pending }

/-- The end an `outcome` record holds. -/
def outcomeEnd (body : Value) : Except Error (Option Str) := do
  match ← getOf (orEmpty (dictGet body (name "status"))) (name "ended_at") with
  | .str ended =>
    match L.fromisoformat ended with
    | none => throw (.valueError [])
    | some instant =>
      match L.naiveUtc instant with
      | none => throw .overflowError
      | some utc => return some (L.isoformat utc)
  | _ =>
    let outcome := dictGet body (name "outcome")
    match equal outcome (.str (name "natural")) || equal outcome (.str (name "spawn_failed")),
        dictGet body (name "at") with
    | true, .str instant => return some instant
    | _, _ => return none

def noteOutcome (body : Value) : Except Error OpenTable := do
  let attempt := pyStr L (← item body (name "attempt"))
  let ended ← outcomeEnd L body
  let running := equal (dictGet body (name "ladder")) (.str (name "running"))
  return { t with
    attempts :=
      match running, t.attempts.get? attempt with
      | true, some held =>
        t.attempts.set attempt
          { held with closing := true, outcome := some (pyStr L (dictGet body (name "outcome"))) }
      | _, _ => t.attempts.erase attempt
    ended := some (attempt, ended) }

/-- The stop an attempt takes: the first it took, unless the engine's last word replaces it. -/
def stopAttempt (draining : Bool) (attempts : Dict Str OpenAttempt) (stop : Str × Value) :
    Dict Str OpenAttempt :=
  match attempts.get? stop.1 with
  | some held =>
    if held.stop = none ∨ !draining then
      attempts.set stop.1 { held with stop := some (pyStr L stop.2) }
    else attempts
  | none => attempts

/-- The stops a record names, by attempt. -/
def namedStops (body : Value) : Except Error (List (Str × Value)) := do
  let stops ← dictItems (orEmpty (dictGet body (name "stops")))
  return ((stops.filter fun e => !equal e.2 .none).map fun e => (pyStr L e.1, e.2)).foldl
    (fun held e => Dict.setIn e.1 e.2 held) []

def noteStops (body : Value) : Except Error OpenTable := do
  let stops ← namedStops L body
  if isEvent body "draining" then
    let unsettled ← elements (orNothing (dictGet body (name "unsettled")))
    let causes := (unsettled.map (pyStr L)).map fun a =>
      (a, (Dict.getIn a stops).getD (.str (name "engine_stop")))
    return { t with attempts := causes.foldl (stopAttempt L true) t.attempts }
  else return { t with attempts := stops.foldl (stopAttempt L false) t.attempts }

def notePending (seq : Int) (body : Value) : Except Error OpenTable := do
  if isEvent body "pending" then
    let job := pyStr L (← item body (name "job"))
    let run_number ← pyInt L (← item body (name "run_number"))
    let scheduled_at := pyStr L (← item body (name "scheduled_at"))
    return { t with pending := t.pending.set seq { seq, job, run_number, scheduled_at } }
  else
    let discharged ← pyInt L (← item body (name "pending"))
    return { t with pending := t.pending.erase discharged }

def notePlan (seq : Int) (attempt : Str) (body : Value) : Except Error OpenTable := do
  let steps ← (← elements (orNothing (dictGet body (name "steps")))).mapM pyDict
  if steps = [] then return t
  else
    let job := pyStr L (← item body (name "job"))
    let run_number ← pyInt L (← item body (name "run_number"))
    let plan := pyStr L (← item body (name "plan"))
    return { t with
      plans := t.plans.set attempt
        { seq, attempt, job, run_number, plan, steps, done := ∅
          ended := t.ended.bind fun e => if e.1 = attempt then e.2 else none } }

def noteFollowUp (seq : Int) (body : Value) : Except Error OpenTable := do
  let attempt := pyStr L (← item body (name "attempt"))
  if isEvent body "ladder_done" then return { t with attempts := t.attempts.erase attempt }
  else if isEvent body "plan" then t.notePlan L seq attempt body
  else
    match t.plans.get? attempt with
    | none => return t
    | some plan =>
      let discharged ← item body (name "seq")
      let step ← pyInt L (← item body (name "step"))
      let plan := { plan with done := plan.done.set step discharged }
      return { t with
        plans := if plan.finished then t.plans.erase attempt else t.plans.set attempt plan }

/-- One attempt an update stops, with the cause of its first stop. -/
def stopEntry (attempts : Dict Str OpenAttempt) (entry : Value) :
    Except Error (Dict Str OpenAttempt) := do
  let attempt := pyStr L (← getOf entry (name "attempt"))
  match attempts.get? attempt with
  | some held =>
    if held.stop = none then
      let named := dictGet entry (name "cause")
      let cause := if truthy named then pyStr L named else name "update_stop"
      return attempts.set held.attempt { held with stop := some cause }
    else return attempts
  | none => return attempts

def noteConfig (seq : Int) (body : Value) : Except Error OpenTable := do
  if isEvent body "intent" then
    let stops ← elements (orNothing (dictGet body (name "stop")))
    let attempts ← stops.foldlM (stopEntry L) t.attempts
    return { t with attempts, update := some (withItem body (name "seq") (.int seq)) }
  else
    match t.update with
    | some update =>
      if equal (dictGet body (name "token")) (dictGet update (name "token")) then
        return { t with update := none }
      else return t
    | none => return t

/-- The `engine` records that name the stops of the attempts the engine left unsettled. -/
def STOP_RECORDS : List Str := ["draining", "clean_shutdown", "unclean_shutdown"].map name

def isStopRecord (body : Value) : Bool :=
  match dictGet body (name "event") with
  | .str event => event ∈ STOP_RECORDS
  | _ => false

/-- One record folded into the table. -/
def note (seq : Int) (record : Record) : Except Error OpenTable := do
  checkRecord L record
  let body := record.payload
  if record.kind = name "dispatch" then t.noteDispatch L seq body
  else if record.kind = name "outcome" then t.noteOutcome L body
  else if record.kind = name "engine" ∧ isStopRecord body then t.noteStops L body
  else if record.kind = name "dispatch_pending" then t.notePending L seq body
  else if record.kind = name "follow_up" then t.noteFollowUp L seq body
  else if record.kind = name "config" then t.noteConfig L seq body
  else return t

end OpenTable

end Dsl41.Runner
