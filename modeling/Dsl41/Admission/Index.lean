import Mathlib
import Dsl41.Admission.Chart
import Dsl41.Infra.Dict
import Dsl41.Infra.Effect

/-!
# The decision index

What each request id got, the fingerprint it was admitted under, and an open instance for each id
with an attempt and no decision. The decisions the index did not see are the store's.
-/

namespace Dsl41.Admission

open Infra Infra.Effect StateMachine

/-- What is wrong with an attempt or a decision the log holds. -/
inductive Disagreement
  | decidedAt (index : Nat) (decision : Verdict)
  | inFlightSince (index : Nat)
  | noAttempt
deriving DecidableEq

inductive Fault
  | statechart (e : StatechartError)
  | disagrees (request_id : String) (index : Nat) (why : Disagreement)
  | collision (request_id : String) (original : Option ApplyResult)
  /-- A second writer is applying inputs. -/
  | undecided (request_id : String)
  | requestTaken (request_id : String)
  | keyError
  | typeError
  /-- Not one outcome. -/
  | valueError
  | outOfFuel
deriving DecidableEq

structure DecisionIndex where
  machines : Machines := Executor.idle ()
  results : Dict String ApplyResult := ∅
  by_index : Dict Nat ApplyResult := ∅
  fingerprints : Dict String String := ∅

/-- A computation of the index. -/
abbrev IndexM := Effect Fault DecisionIndex

def ofMachines {α : Type} (x : Except StatechartError α) : IndexM α :=
  Effect.ofExcept (x.mapError .statechart)

/-- `run`: every item to completion. -/
def runMachines : IndexM (List (Outcome String Payload)) := do
  let index ← get
  match ← ofMachines (drain index.machines) with
  | none => throw .outOfFuel
  | some (machines, outcomes) =>
    modify fun index => { index with machines }
    return outcomes

/-- Post one event and run. -/
def dispatch (request_id : String) (event : Event Payload) : IndexM (List (Outcome String Payload)) := do
  let index ← get
  let machines ← ofMachines (index.machines.post request_id event)
  modify fun index => { index with machines }
  runMachines

/-- The data of an id's instance. -/
def attemptOf (index : DecisionIndex) (request_id : String) : Except Fault Attempt :=
  match index.machines.records.get request_id with
  | .error e => .error (.statechart e)
  | .ok inst =>
    match inst.data with
    | .attempt first => .ok first
    | _ => .error .typeError

/-- The attempt is durable: the id's instance starts, with the attempt as its data. An id that
already has an attempt is refused before any start. -/
def note (attempt : Attempt) : IndexM Unit := do
  let index ← get
  let request_id := attempt.request_id
  match index.results.get? request_id with
  | some decided =>
    throw (.disagrees request_id attempt.index (.decidedAt decided.index decided.decision))
  | none => pure ()
  if (index.fingerprints.get? request_id).isSome then
    let first ← Effect.ofExcept (attemptOf index request_id)
    throw (.disagrees request_id attempt.index (.inFlightSince first.index))
  let machines ← ofMachines (index.machines.start request_id ADMISSION (.attempt attempt))
  modify fun index => { index with machines }
  modify fun index =>
    { index with fingerprints := index.fingerprints.set request_id attempt.fingerprint }
  let _ ← runMachines

/-- The decision is taken: the instance takes it, the maps hold it and the final instance goes. -/
def record (result : ApplyResult) : IndexM Unit := do
  let index ← get
  let request_id := result.request_id
  if (index.fingerprints.get? request_id).isNone || (index.results.get? request_id).isSome then
    throw (.disagrees request_id result.index .noAttempt)
  let _ ← dispatch request_id { name := DECIDE, payload := .result result }
  modify fun index => { index with results := index.results.set request_id result }
  modify fun index => { index with by_index := index.by_index.set result.index result }
  let index ← get
  let machines ← ofMachines (index.machines.forget request_id)
  modify fun index => { index with machines }

/-- `del`, of the entries of an id. -/
def forgetId (request_id : String) : IndexM Unit := do
  let index ← get
  if (index.results.get? request_id).isNone then throw .keyError
  modify fun index => { index with results := index.results.erase request_id }
  if (index.fingerprints.get? request_id).isNone then throw .keyError
  modify fun index => { index with fingerprints := index.fingerprints.erase request_id }

/-- The oldest decisions, as long as their index is below one. -/
def evictEach (below : Nat) : List (Nat × ApplyResult) → IndexM Unit
  | [] => pure ()
  | (found, result) :: rest => do
    if below ≤ found then return ()
    modify fun index => { index with by_index := index.by_index.erase found }
    forgetId result.request_id
    evictEach below rest

/-- The decisions below an index go: those the store's retention pruned. -/
def evict_below (below : Nat) : IndexM Unit := do
  let index ← get
  evictEach below index.by_index.entries

/-- The decisions the index did not see, each with the fingerprint it was admitted under. -/
abbrev Fallback := String → Except Fault (Option (ApplyResult × String))

/-- The prior decision for an exact retry, or none for an unseen request. A reused id is refused, and
so is an id with no decision yet. -/
def lookup (fallback : Option Fallback) (request_id fingerprint : String) :
    IndexM (Option ApplyResult) := do
  let index ← get
  match index.fingerprints.get? request_id with
  | none =>
    match ← Effect.ofExcept ((fallback.map (· request_id)).getD (.ok none)) with
    | none => return none
    | some (stored, admitted_under) =>
      if admitted_under ≠ fingerprint then throw (.collision request_id (some stored))
      return some stored
  | some seen =>
    match index.results.get? request_id with
    | none =>
      match ← dispatch request_id { name := INPUT, payload := .fingerprint fingerprint } with
      | [outcome] =>
        if outcome.refusals ≠ [] then throw (.collision request_id none)
        throw (.undecided request_id)
      | _ => throw .valueError
    | some result =>
      if seen ≠ fingerprint then throw (.collision request_id (some result))
      return some result

local instance transName : IsTrans Name fun s t => s ≤ t := inferInstance

local instance antisymmName : Std.Antisymm fun s t : Name => s ≤ t := inferInstance

local instance totalName : Std.Total fun s t : Name => s ≤ t := inferInstance

/-- `admitted`, `applied` or `rejected`, or none for an unseen id: the stored decision, else the open
instance's leaf. -/
def DecisionIndex.state (index : DecisionIndex) (request_id : String) : Except Fault (Option Name) :=
  match index.results.get? request_id with
  | some result => .ok (some (match result.decision with | .applied => "applied" | .rejected => "rejected"))
  | none =>
    if (index.fingerprints.get? request_id).isNone then .ok none
    else
      match index.machines.records.get request_id with
      | .error e => .error (.statechart e)
      | .ok inst =>
        match (inst.active.erase ADMISSION.root.name).sort (· ≤ ·) with
        | [leaf] => .ok (some leaf)
        | _ => .error .valueError

end Dsl41.Admission
