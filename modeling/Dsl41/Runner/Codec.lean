import Dsl41.Runner.OpenTable
import Mathlib.Data.Finset.Sort
import Mathlib.Data.Prod.Lex

/-!
# Snapshots

The open table and the position of the records as a snapshot holds them, and both read back.
-/

namespace Dsl41.Runner

open Infra Infra.Json Canon

variable (L : Library)

def strOrNone : Option Str → Value
  | some s => .str s
  | none => .none

/-- A field that holds a text. -/
def stringItem (body : Value) (key : String) : Except Error Str := do
  match ← item body (name key) with
  | .str s => return s
  | _ => throw .typeError

/-- A field that holds a text or none. -/
def optionalString (body : Value) (key : String) : Except Error (Option Str) :=
  match dictGet body (name key) with
  | .str s => .ok (some s)
  | .none => .ok none
  | _ => .error .typeError

/-- `"sha256:"` and the digest of the canonical bytes. -/
def hashOver (value : Value) : Except Error Str := do
  let bytes ← canon (canonicalBytes value)
  return name "sha256:" ++ L.sha256 bytes

/-! ## The open table as a payload -/

def OpenAttempt.toPayload (a : OpenAttempt) : Value :=
  .mapping [(name "attempt", .str a.attempt), (name "job", .str a.job),
    (name "run_number", .int a.run_number), (name "ordinal", .int a.ordinal),
    (name "spool", a.spool), (name "seq", .int a.seq), (name "started_at", .str a.started_at),
    (name "env", a.env), (name "after", a.after), (name "stop", strOrNone a.stop),
    (name "closing", .bool a.closing), (name "outcome", strOrNone a.outcome),
    (name "dispatch", a.dispatch)]

def PendingDispatch.toPayload (p : PendingDispatch) : Value :=
  .mapping [(name "seq", .int p.seq), (name "job", .str p.job),
    (name "run_number", .int p.run_number), (name "scheduled_at", .str p.scheduled_at)]

def OpenPlan.toPayload (p : OpenPlan) : Value :=
  .mapping [(name "seq", .int p.seq), (name "attempt", .str p.attempt), (name "job", .str p.job),
    (name "run_number", .int p.run_number), (name "plan", .str p.plan), (name "steps", .list p.steps),
    (name "done", .list ((p.done.entries.insertionSort fun e e' => e.1 ≤ e'.1).map
      fun e => .list [.int e.1, e.2])),
    (name "ended", strOrNone p.ended)]

namespace OpenTable

variable (t : OpenTable)

/-- The open attempts in seq order. -/
def sortedAttempts : List OpenAttempt :=
  (t.attempts.entries.map Prod.snd).insertionSort fun a a' => a.seq ≤ a'.seq

def sortedPending : List PendingDispatch :=
  (t.pending.entries.map Prod.snd).insertionSort fun p p' => p.seq ≤ p'.seq

def sortedPlans : List OpenPlan :=
  (t.plans.entries.map Prod.snd).insertionSort fun p p' => p.seq ≤ p'.seq

/-- What the dispatch hash is over. -/
def hashed (dispatches : Value) (bodies : List Value) : Value :=
  .mapping [(name "dispatches", dispatches), (name "attempts", .list bodies)]

/-- The table as the snapshot holds it. -/
def toPayload : Except Error Value := do
  let dispatches := .mapping t.dispatches.entries
  let hash ← hashOver L (hashed dispatches (t.sortedAttempts.map OpenAttempt.dispatch))
  return .mapping [(name "dispatches", dispatches),
    (name "attempts", .list (t.sortedAttempts.map OpenAttempt.toPayload)),
    (name "pending", .list (t.sortedPending.map PendingDispatch.toPayload)),
    (name "plans", .list (t.sortedPlans.map OpenPlan.toPayload)),
    (name "dispatch_hash", .str hash)]

/-! ## The payload read back -/

def restoreDispatch (held : Dict Str Value) (e : Str × Value) : Except Error (Dict Str Value) := do
  checkDispatch L e.2
  let job ← item e.2 (name "job")
  match wireInt? (← item e.2 (name "seq")) with
  | some seq =>
    if !equal job (.str e.1) || seq < 1 then throw (.valueError "invalid version-28 snapshot".toList)
    checkDispatchSeq e.2 seq none true
    return held.set e.1 e.2
  | none => throw (.valueError "invalid version-28 snapshot".toList)

/-- The fields an attempt has of its dispatch. -/
def DISPATCH_FIELDS : List Str :=
  ["attempt", "job", "run_number", "ordinal", "spool", "seq", "started_at", "env"].map name

/-- Whether an attempt's field is the dispatch's. -/
def sameField (a body : Value) (key : Str) : Except Error Bool := do
  return equal (← item a key) (← item body key)

/-- An attempt of the run its job dispatched last has the first seq of that run. -/
def checkRetained (dispatches : Dict Str Value) (job : Str) (a body : Value) : Except Error Unit := do
  match dispatches.get? job with
  | none => throw (.keyError (.inl job))
  | some latest =>
    let run_number ← item latest (name "run_number")
    let first ← item latest (name "first_dispatch_seq")
    if equal run_number (← item a (name "run_number")) &&
        !equal first (← item body (name "first_dispatch_seq")) then
      throw (.valueError "snapshot attempt disagrees with retained S".toList)

def restoreAttempt (dispatches : Dict Str Value) (held : Dict Str OpenAttempt) (a : Value) :
    Except Error (Dict Str OpenAttempt) := do
  let body ← item a (name "dispatch")
  checkDispatch L body
  let seq ← intItem a (name "seq")
  checkDispatchSeq body seq none true
  if !(← DISPATCH_FIELDS.mapM (sameField a body)).all id then
    throw (.valueError "snapshot attempt disagrees with its dispatch".toList)
  let job ← stringItem a "job"
  checkRetained dispatches job a body
  let attempt ← stringItem a "attempt"
  let run_number ← intItem a (name "run_number")
  let ordinal ← intItem a (name "ordinal")
  let spool ← item a (name "spool")
  let started_at ← stringItem a "started_at"
  let env ← pyDict (← item a (name "env"))
  let stop ← optionalString a "stop"
  let outcome ← optionalString a "outcome"
  return held.set attempt
    { attempt, job, run_number, ordinal, spool, seq, started_at, env, after := dictGet a (name "after")
      stop, closing := truthy (dictGet a (name "closing")), outcome, dispatch := ← pyDict body }

def restorePending (held : Dict Int PendingDispatch) (p : Value) :
    Except Error (Dict Int PendingDispatch) := do
  let seq ← intItem p (name "seq")
  let job ← stringItem p "job"
  let run_number ← intItem p (name "run_number")
  let scheduled_at ← stringItem p "scheduled_at"
  return held.set seq { seq, job, run_number, scheduled_at }

/-- One done mark: a step and the seq that discharged it. -/
def restoreDone (held : Dict Int Value) (mark : Value) : Except Error (Dict Int Value) := do
  match mark with
  | .list [step, seq] => return held.set (← pyInt L step) seq
  | .list _ => throw (.valueError [])
  | _ => throw .typeError

def restorePlan (held : Dict Str OpenPlan) (p : Value) : Except Error (Dict Str OpenPlan) := do
  checkSteps (← item p (name "steps"))
  let seq ← intItem p (name "seq")
  let attempt ← stringItem p "attempt"
  let job ← stringItem p "job"
  let run_number ← intItem p (name "run_number")
  let plan ← stringItem p "plan"
  let steps ← (← elements (← item p (name "steps"))).mapM pyDict
  let done ← (← elements (← item p (name "done"))).foldlM (restoreDone L) ∅
  let ended ← optionalString p "ended"
  return held.set attempt { seq, attempt, job, run_number, plan, steps, done, ended }

def restoreDispatches (held : Value) : Except Error (Dict Str Value) :=
  match held with
  | .mapping entries => entries.foldlM (restoreDispatch L) ∅
  | _ => .error (.valueError "invalid version-28 snapshot dispatches".toList)

/-- The retained dispatches are the ones the hash is over. -/
def checkHash (payload : Value) : Except Error Unit := do
  let hash ← item payload (name "dispatch_hash")
  let held ← item payload (name "dispatches")
  let attempts := (Dict.getIn (name "attempts") (items payload)).getD (.list [])
  let bodies ← (← elements attempts).mapM fun a => item a (name "dispatch")
  if !equal hash (.str (← hashOver L (hashed held bodies))) then
    throw (.valueError "invalid version-28 dispatch snapshot hash".toList)

def fromPayload (payload : Value) : Except Error OpenTable := do
  checkHash L payload
  let dispatches ← restoreDispatches L (← item payload (name "dispatches"))
  let attempts ← (← elements (orNothing (dictGet payload (name "attempts")))).foldlM
    (restoreAttempt L dispatches) ∅
  let pending ← (← elements (orNothing (dictGet payload (name "pending")))).foldlM restorePending ∅
  let plans ← (← elements (orNothing (dictGet payload (name "plans")))).foldlM (restorePlan L) ∅
  return { attempts, dispatches, pending, plans, update := none, ended := none }

/-- The table with the snapshot's update in STOPPING. -/
def withUpdate (update : Value) : OpenTable :=
  { t with
    update :=
      match update with
      | .mapping _ => some update
      | _ => none }

end OpenTable

/-! ## The position -/

/-- Where the records leave time: the last instant they prove the engine reached, and the
scheduler's durable frontier with the ticks adjudicated at it. -/
structure Position where
  last_at : Option L.Instant
  frontier : Option L.Instant
  ticks : Finset (Str × Str)

namespace Position

variable {L}

def empty : Position L where
  last_at := none
  frontier := none
  ticks := ∅

def instant? (value : Value) : Except Error (Option L.Instant) :=
  match value with
  | .str text =>
    match L.fromisoformat text with
    | some instant => .ok (some instant)
    | none => .error (.valueError [])
  | _ => .ok none

/-- The instant a record proves the engine reached, and whether it is the schedule's. -/
def stamped (record : Record) : Except Error (Option (L.Instant × Bool)) := do
  let body := record.payload
  let kind := record.kind
  if kind = name "config" && isEvent body "applied" then
    return (← instant? (dictGet body (name "at"))).map fun i => (i, true)
  else if kind = name "input" then
    let semantic := equal (dictGet body (name "kind")) .none ||
      equal (dictGet body (name "source")) (.str (name "scheduler"))
    return (← instant? (dictGet body (name "at"))).map fun i => (i, semantic)
  else if kind = name "drop" then
    return (← instant? (dictGet body (name "at"))).map fun i => (i, true)
  else if kind = name "dispatch" then
    return (← instant? (dictGet body (name "started_at"))).map fun i => (i, false)
  else return none

/-- Whether the instant is after the held one, or none is held. -/
def isAfter (stamp : L.Instant) : Option L.Instant → Except Error Bool
  | none => .ok true
  | some held =>
    match L.after stamp held with
    | some b => .ok b
    | none => .error .typeError

/-- The job of a scheduled start. -/
def tickJob (body : Value) : Except Error (Option Str) := do
  if equal (dictGet body (name "kind")) (.str (name "STARTJOB")) then
    match ← getOf (orEmpty (dictGet body (name "payload"))) (name "job") with
    | .str job => return some job
    | _ => return none
  else return none

variable (p : Position L)

/-- The last instant reached moves on. -/
def reach (stamp : L.Instant) : Except Error (Position L) := do
  if ← isAfter stamp p.last_at then return { p with last_at := some stamp } else return p

/-- The frontier moves on, and its ticks are counted anew. -/
def advanceFrontier (stamp : L.Instant) : Except Error (Position L) := do
  if ← isAfter stamp p.frontier then return { p with frontier := some stamp, ticks := ∅ }
  else return p

/-- A scheduled start at the frontier is one of its ticks. -/
def addTick (stamp : L.Instant) (body : Value) : Except Error (Position L) := do
  if p.frontier.any (L.same stamp) then
    match ← tickJob body with
    | some job => return { p with ticks := insert (job, L.isoformat stamp) p.ticks }
    | none => return p
  else return p

def note (record : Record) : Except Error (Position L) := do
  match ← stamped record with
  | none => return p
  | some (stamp, semantic) =>
    let p ← p.reach stamp
    if semantic then
      let p ← p.advanceFrontier stamp
      p.addTick stamp record.payload
    else return p

def instantText : Option L.Instant → Value
  | some i => .str (L.isoformat i)
  | none => .none

/-- The ticks in order. -/
def sortedTicks : List (Str × Str) :=
  (p.ticks.image toLex).sort (· ≤ ·) |>.map ofLex

def toPayload : Value :=
  .mapping [(name "last_at", instantText p.last_at), (name "frontier", instantText p.frontier),
    (name "ticks", .list (p.sortedTicks.map fun e => .list [.str e.1, .str e.2]))]

def restoreTick (L : Library) (ticks : Finset (Str × Str)) (tick : Value) : Except Error (Finset (Str × Str)) := do
  match tick with
  | .list [job, instant] => return insert (pyStr L job, pyStr L instant) ticks
  | .list _ => throw (.valueError [])
  | _ => throw .typeError

def fromPayload (payload : Value) : Except Error (Position L) := do
  let last_at ← instant? (dictGet payload (name "last_at"))
  let frontier ← instant? (dictGet payload (name "frontier"))
  let ticks ← (← elements (orNothing (dictGet payload (name "ticks")))).foldlM (restoreTick L) ∅
  return { last_at, frontier, ticks }

end Position

end Dsl41.Runner
