import Dsl41.Store.Verbs
import Dsl41.StateMachine.Executor
import Dsl41.Oracle.Events

/-!
# The world of the oracle

What the interpreter holds beside its executor: the catalog in force with its switches and its
pool, the store, the clock, the logs, and the bookkeeping of a cascade. The executor's actions and
the hook write it; the guards and the facts read its `View`, which leaves out the revisions, the
logs and the counters.

The reads of zones and calendars are functions of a schedule and an instant; none stands for a
read that raises.
-/

namespace Dsl41.Oracle

open Dsl41.Infra Dsl41.Store
open Dsl41.StateMachine (Executor StatechartError)

/-! ## Events and logs -/

/-- A payload's value that is not text. `compound` holds the text of a list or of a mapping. -/
inductive Scalar where
  | int (n : Int)
  | bool (b : Bool)
  | null
  | compound (text : String)
deriving DecidableEq

abbrev Event := Store.Event Instant Scalar

structure TraceEntry where
  at_ : Instant
  job : String
  transition : String
  cause : String
deriving DecidableEq

/-- `isinstance(value, int)`: a truth value is an integer too. -/
def asInt : Option (Value Scalar) → Option Int
  | some (.other (.int n)) => some n
  | some (.other (.bool b)) => some (if b then 1 else 0)
  | _ => none

def asText : Option (Value Scalar) → Option String
  | some (.text s) => some s
  | _ => none

/-- `str(value)`. -/
def textOf : Option (Value Scalar) → String
  | some (.text s) => s
  | some (.other (.int n)) => toString n
  | some (.other (.bool b)) => if b then "True" else "False"
  | some (.other (.compound text)) => text
  | some (.other .null) | none => "None"

/-- The names of the statuses. -/
def statusName : JobStatus → String
  | .inactive => "INACTIVE"
  | .queWait => "QUE_WAIT"
  | .starting => "STARTING"
  | .running => "RUNNING"
  | .success => "SUCCESS"
  | .failure => "FAILURE"
  | .terminated => "TERMINATED"

/-- `repr` of a name that needs no escape. -/
def quoted (name : String) : String := "'" ++ name ++ "'"

/-- `repr` of a name or of `None`. -/
def quotedOption : Option String → String
  | some name => quoted name
  | none => "None"

/-! ## The clock -/

/-- The reads of the zones and the calendars, under the tables in force. -/
structure ClockReads where
  /-- The side of the schedule's window, with the next opening of a deferred start. -/
  windowSide : ScheduleBlock → Instant → Option (WindowSide × Option Instant)
  /-- The local day, as the oracle's texts name it. -/
  today : ScheduleBlock → Instant → Option String
  /-- A calendar holds the local day. -/
  calendarHas : ScheduleBlock → String → Instant → Option Bool
  /-- The token of the local weekday. -/
  weekday : ScheduleBlock → Instant → Option String
  /-- The opening of the next eligible day, or the instant the scan for one resumes at with the
  last day it looked at. -/
  nextOpening : ScheduleBlock → Instant → Option (Instant ⊕ Instant × String)
  /-- The entry of `start_times` an instant is. -/
  startSlot : ScheduleBlock → Instant → Option (Option Nat)
  /-- An absolute must time of a slot, on the local day of an instant. -/
  mustInstant : ScheduleBlock → Nat → Time → Instant → Option Instant

/-! ## The cascade's bookkeeping -/

/-- `Move`: one status move's record. `new` is the status it leaves until the write fills it. -/
structure Move where
  job : String
  old : JobStatus
  run : Int
  new : JobStatus
  done : Bool := false
  released : Bool := false
  batch : Option BatchId := none
deriving DecidableEq

/-- `Move.releasing`. -/
def Move.releasing (m : Move) : Bool := m.old.live && !m.new.live

/-- `Batch`. -/
structure Batch where
  box : String
  clear : Bool := false
  code : Option Int := none
  rows : List MoveId := []
deriving DecidableEq

/-- The record of the scan in flight: its mode, the pass's list and the turn. -/
structure ScanRecord where
  keepStopped : Bool := false
  waiters : List String := []
  turn : Nat := 0
deriving DecidableEq

structure Cascade where
  scanOwed : Bool := false
  windowStarts : Option BoxStarts := none
  late : Dict String (List MoveId) := ∅
  readmitted : Bool := false
  scan : ScanRecord := {}
  moves : List Move := []
  batches : List Batch := []

/-- `_cascade_idle`. The records stay: nothing names them any more. -/
def Cascade.idle (c : Cascade) : Cascade :=
  { c with scanOwed := false, windowStarts := none, late := ∅, readmitted := false }

/-! ## What is raised -/

inductive OracleError where
  | oracle (text : String)
  /-- The item cap: the root item's job and name, the cap. -/
  | cascadeDepth (job root : String) (cap : Nat)
  | store (error : StoreError)
  | statechart (error : StatechartError)
  /-- A finding of the hook about a job's microstep. -/
  | hook (job text : String)
  /-- A read of a zone or a calendar for a job. -/
  | clock (job : String)
  /-- A job the catalog does not define, where its record is needed. -/
  | keyError (job : String)
  | outOfFuel
deriving DecidableEq

/-- The class `StatechartError`. -/
def OracleError.isStatechart : OracleError → Bool
  | statechart _ | hook .. => true
  | _ => false

/-! ## The world -/

structure World where
  catalog : CatalogIR
  semantics : SemanticSwitches := {}
  clock : ClockReads
  pool : CapacityPool
  store : RuntimeState Instant Scalar := {}
  now : Option Instant := none
  cascade : Cascade := {}
  trace : List TraceEntry := []
  emitted : List Event := []
  killEmissions : List Nat := []
  queue : List Event := []
  openingRelease : List String := []
  wakeOwed : Bool := false
  items : Nat := 0
  cap : Nat := 0
  rooted : Option (String × String) := none
  reached : List String := []
  raised : Option OracleError := none

/-- What the facts read. -/
structure View where
  catalog : CatalogIR
  semantics : SemanticSwitches
  clock : ClockReads
  pool : CapacityPool
  rows : Rows
  globals : Dict String String
  consumed : Dict String Int
  timers : Timers Instant Scalar
  now : Option Instant
  cascade : Cascade

def World.view (w : World) : View where
  catalog := w.catalog
  semantics := w.semantics
  clock := w.clock
  pool := w.pool
  rows := w.store.jobs.mapValues (·.toJobFields)
  globals := w.store.globals.mapValues (·.value)
  consumed := w.store.consumed
  timers := w.store.timers
  now := w.now
  cascade := w.cascade

/-- A microstep: the item, and the world before and after it and its hook. -/
structure Taken where
  item : StateMachine.Item Key Payload
  before : World
  after : World

/-- The oracle: the executor of the job instances with its world. `taken` is a ghost: the
microsteps of its cascades so far, in order. -/
structure Machine where
  executor : Executor Key Payload World
  taken : List Taken := []

/-- A computation of the hook. -/
abbrev WorldM := Effect OracleError World

/-- A verb of the state owner. -/
def onStore {α : Type} (m : RuntimeM Instant Scalar α) : WorldM α := do
  let w ← get
  modify fun w => { w with store := m.after w.store }
  match m.result w.store with
  | .ok a => return a
  | .error e => throw (.store e)

/-- `_record`. -/
def record (job transition cause : String) : WorldM Unit := do
  match (← get).now with
  | none => throw (.oracle "no instant")
  | some at_ => modify fun w => { w with trace := w.trace ++ [{ at_, job, transition, cause }] }

/-- `_emit`. -/
def emit (kind : EventKind) (payload : Dict String (Value Scalar)) : WorldM Unit := do
  match (← get).now with
  | none => throw (.oracle "no instant")
  | some at_ => modify fun w => { w with emitted := w.emitted ++ [{ at_, kind, payload }] }

/-- A change of the cascade's bookkeeping. -/
def onCascade (f : Cascade → Cascade) : WorldM Unit := modify fun w => { w with cascade := f w.cascade }

end Dsl41.Oracle
