import Dsl41.Infra.Effect
import Dsl41.Infra.Snapshot
import Dsl41.Store.Assembly
import Dsl41.Store.Rows

/-!
# The state owner

The maps of job rows and global rows, the timers, the capacity accounts, the assembly phase and
the open input's snapshots, with the verbs that write them. A verb is an `Effect`: what it wrote
before it raised stays written.
-/

namespace Dsl41.Store

open Dsl41.Infra
open Dsl41.StateMachine (Name StatechartError)

/-- The class of what the owner raises. -/
inductive ErrorClass where
  | oracleError | valueError
deriving DecidableEq, Repr

/-- `_ASSEMBLY_REFUSALS`: the class and the text of a refusal met in a phase. -/
def Refusal.raised (phase : AssemblyPhase) : Refusal → ErrorClass × String
  | installOnUsedState => (.valueError, "install on a used state: carried rows are assembly's" ++
      " first act, and a live state advances through its own inputs alone (period-model ss7)")
  | inputAlreadyOpen => (.oracleError, "input already open: inputs do not nest")
  | noInputOpen => (.oracleError, "commit_input in assembly phase " ++ phase.name ++ ": " ++
      phase.name ++ " is not a source of runtime_assembly.07")
  | insideGenesisInput => (.oracleError, "finish_genesis in assembly phase " ++ phase.name ++
      ": " ++ phase.name ++ " is not a source of runtime_assembly.04")
  | constructionFinished => (.valueError, "finish_genesis twice: construction happens once")
  | constructionAfterSeed =>
    (.valueError, "finish_genesis after seed_period: construction comes first")
  | seedInsideInput =>
    (.valueError, "seed_period inside an input: assembly precedes inputs")
  | seedOnUsedState => (.valueError, "seed_period on a used state: seeding is assembly's first" ++
      " act, and a live state never moves its period (I2)")

/-- What the owner raises, with the facts its message names. -/
inductive StoreError where
  | refused (cls : ErrorClass) (text : String)
  | periodBelowOne (period : Int)
  | unknownNamespace (key : String)
  | removedByUpdate (job : String)
  | holdsCapacity (job : String) (status : JobStatus)
  | rankOutsideQueue (job : String) (rank : Option Nat) (status : JobStatus)
  | rankAboveAllocator (job : String) (rank allocator : Nat)
  | negativeConsumed (bucket : String) (units : Int)
  | insideInput (verb job : String)
  | retireWithoutRow (job : String)
  | admitOverRow (job : String)
  | alreadyHolds (job : String)
  | liveStart (job : String) (status : JobStatus)
  | liveRelease (job : String) (status : JobStatus)
  | keyError (key : String)
  | instanceDiffers (job : String) (active rowActive : Finset Name)
  | statechart (error : StatechartError)
deriving DecidableEq

/-! ## The state -/

/-- An entity of the store. -/
inductive Entity where
  | job (name : String)
  | global (name : String)
deriving DecidableEq, Repr

/-- `job_key` and `global_key`. -/
def Entity.key : Entity → String
  | job name => "job:" ++ name
  | global name => "global:" ++ name

/-- The two halves of `str.partition(":")`. -/
def partition (key : String) : String × String :=
  let (namespace_, rest) := key.toList.span (· ≠ ':')
  (String.ofList namespace_, String.ofList rest.tail)

/-- What `_projection` gives: a job's fields and timers, or a global's value. -/
inductive Projection (τ : Type) where
  | job (fields : JobFields τ) (timers : List (τ × Nat))
  | global (value : Option String)
deriving DecidableEq

/-- What the job instances' tier gives for a row: the configuration the row projects, of the
chart `restore` checks it against, or what it raises. -/
abbrev JobInstance (τ : Type) := String → JobRuntime τ → Except StatechartError (Finset Name)

/-- `RuntimeState`. Of `machines` it keeps the assembly's phase and the job instances'
configurations. -/
structure RuntimeState (τ ω : Type) [LinearOrder τ] where
  jobs : Dict String (JobRuntime τ) := ∅
  globals : Dict String GlobalRuntime := ∅
  phase : AssemblyPhase := .fresh
  instances : String → Option (Finset Name) := fun _ => none
  jobInstance : Option (JobInstance τ) := none
  timers : Timers τ ω := {}
  timerSeq : Nat := 0
  periodId : Int := 1
  consumed : Dict String Int := ∅
  enqueueCounter : Nat := 0
  tombstones : Dict String (JobRuntime τ) := ∅
  snapshots : Dict Entity (Projection τ) := ∅

/-- `CarriedRows`: what an install lands. -/
structure CarriedRows (τ ω : Type) where
  jobs : Dict String (JobRuntime τ) := ∅
  globals : Dict String GlobalRuntime := ∅
  timers : List (Timer τ ω) := []
  timerSeq : Nat := 0
  consumed : Dict String Int := ∅
  enqueueCounter : Nat := 0
  tombstones : Dict String (JobRuntime τ) := ∅

variable {τ ω : Type} [LinearOrder τ]

namespace RuntimeState

/-! ## Reads -/

/-- The row of a job, the default row when there is none. -/
def row (s : RuntimeState τ ω) (job : String) : JobRuntime τ := (s.jobs.get? job).getD {}

/-- `_projection`. A missing job projects as the default row, a missing global as none. -/
def projection (s : RuntimeState τ ω) : Entity → Projection τ
  | .job name => .job (s.row name).toJobFields (s.timers.timersFor name)
  | .global name => .global ((s.globals.get? name).map (·.value))

/-- The revision of an entity: 0 for one that does not exist. -/
def entityRevision (s : RuntimeState τ ω) : Entity → Nat
  | .job name => (s.row name).stateRev
  | .global name => ((s.globals.get? name).map (·.stateRev)).getD 0

/-- `revision`. -/
def revision (s : RuntimeState τ ω) (key : String) : Except StoreError Nat :=
  let (namespace_, name) := partition key
  if namespace_ = "job" then .ok (s.entityRevision (.job name))
  else if namespace_ = "global" then .ok (s.entityRevision (.global name))
  else .error (.unknownNamespace key)

/-- `next_timer_due`. -/
def nextTimerDue (s : RuntimeState τ ω) : Option τ := s.timers.entries.head?.map (·.due)

end RuntimeState

/-- A verb of the owner. -/
abbrev RuntimeM (τ ω : Type) [LinearOrder τ] := Effect StoreError (RuntimeState τ ω)

namespace RuntimeState

/-! ## The input transaction -/

/-- `_assemble`: move the phase, or raise the refusal. -/
def assemble (event : AssemblyEvent) : RuntimeM τ ω Unit := do
  let s ← get
  match s.phase.assemble event with
  | .ok phase => modify fun s => { s with phase }
  | .error code => throw (.refused (code.raised s.phase).1 (code.raised s.phase).2)

/-- `_touch`: in an open input, keep the projection of a key not yet kept. -/
def touch (e : Entity) : RuntimeM τ ω Unit :=
  modify fun s =>
    if s.phase.isOpen ∧ s.snapshots.get? e = none then
      { s with snapshots := s.snapshots.set e (s.projection e) }
    else s

/-- `_restore_job`: add the instance of a row; a job that has one is refused. -/
def restoreJob (f : JobInstance τ) (job : String) (row : JobRuntime τ)
    (instances : String → Option (Finset Name)) :
    Except StatechartError (String → Option (Finset Name)) := do
  let active ← f job row
  match instances job with
  | some _ => .error .instanceExists
  | none => .ok (Function.update instances job (some active))

/-- Give a new row its instance, where job instances are kept. -/
def restoreRow (job : String) (row : JobRuntime τ) : RuntimeM τ ω Unit := do
  let s ← get
  match s.jobInstance with
  | none => pure ()
  | some f =>
    match restoreJob f job row s.instances with
    | .ok instances => modify fun s => { s with instances }
    | .error e => throw (.statechart e)

/-- `runtime`: the row, created when there is none; a removed name is refused. -/
def runtime (job : String) : RuntimeM τ ω (JobRuntime τ) := do
  let s ← get
  if (s.tombstones.get? job).isSome then throw (.removedByUpdate job)
  match s.jobs.get? job with
  | some row => return row
  | none =>
    modify fun s => { s with jobs := s.jobs.set job {} }
    restoreRow job {}
    return {}

/-- `_replace`: the single write of a job's row. -/
def replace (job : String) (fields : JobRuntime τ → JobRuntime τ) : RuntimeM τ ω Unit := do
  touch (.job job)
  let row ← runtime job
  modify fun s => { s with jobs := s.jobs.set job (fields row) }

/-- `begin_input`. -/
def beginInput : RuntimeM τ ω Unit := do
  assemble .beginInput
  modify fun s => { s with snapshots := ∅ }

/-- What `_check_capacity` finds wrong with one touched row. -/
def capacityProblem (enqueueCounter : Nat) (job : String) (row : JobRuntime τ) :
    Option StoreError :=
  if !row.status.live && !row.reservations.all (·.mayOutliveRun) then
    some (.holdsCapacity job row.status)
  else if row.waiterSeq.isSome != decide (row.status = .queWait) then
    some (.rankOutsideQueue job row.waiterSeq row.status)
  else
    match row.waiterSeq with
    | some rank =>
      if rank > enqueueCounter then some (.rankAboveAllocator job rank enqueueCounter) else none
    | none => none

/-- `_check_capacity`: the first problem among the touched rows, then among the spent units. -/
def checkCapacity (s : RuntimeState τ ω) (touched : List Entity) : Option StoreError :=
  let ofRow : Entity → Option StoreError
    | .job name => (s.jobs.get? name).bind (capacityProblem s.enqueueCounter name)
    | .global _ => none
  let ofBucket : String × Int → Option StoreError
    | (bucket, units) => if units < 0 then some (.negativeConsumed bucket units) else none
  (touched.findSome? ofRow).or (s.consumed.entries.findSome? ofBucket)

/-- Raise what a check found. -/
def raiseIf : Option StoreError → RuntimeM τ ω Unit
  | some e => throw e
  | none => pure ()

/-- The increment of one changed entity. -/
def bump : Entity → RuntimeM τ ω Unit
  | .job name => do
    let row ← runtime name
    replace name fun r => { r with stateRev := row.stateRev + 1 }
  | .global name => do
    let s ← get
    match s.globals.get? name with
    | none => throw (.keyError name)
    | some row =>
      modify fun s => { s with
        globals := s.globals.set name { value := row.value, stateRev := row.stateRev + 1 } }

/-- The increments, in the order of the keys. -/
def bumpAll : List Entity → RuntimeM τ ω Unit
  | [] => pure ()
  | e :: rest => do
    bump e
    bumpAll rest

/-- `_check_job_instance`, for a touched entity: a job's row projects its instance. -/
def instanceProblem (s : RuntimeState τ ω) (f : JobInstance τ) : Entity → Option StoreError
  | .global _ => none
  | .job name =>
    match s.jobs.get? name with
    -- a timer alone touches its job's key: no row, nothing to check
    | none => none
    | some row =>
      match f name row, s.instances name with
      | .error e, _ => some (.statechart e)
      | .ok _, none => some (.statechart .noInstance)
      | .ok rowActive, some active =>
        if active = rowActive then none else some (.instanceDiffers name active rowActive)

/-- `commit_input`: the changed keys, each entity of them incremented once. -/
def commitInput : RuntimeM τ ω (List String) := do
  assemble .commitInput
  let s ← get
  let snapshots := s.snapshots
  modify fun s => { s with snapshots := ∅ }
  raiseIf (checkCapacity s snapshots.keys)
  let changed := (moved s.projection snapshots).insertionSort (·.key ≤ ·.key)
  bumpAll changed
  let s ← get
  raiseIf (s.jobInstance.bind fun f => snapshots.keys.findSome? (s.instanceProblem f))
  return changed.map (·.key)

end RuntimeState

end Dsl41.Store
