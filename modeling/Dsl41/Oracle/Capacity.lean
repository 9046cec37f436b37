import Mathlib.Data.Prod.Lex
import Mathlib.Data.List.Sort
import Mathlib.Data.String.Basic
import Dsl41.Oracle.Catalog

/-!
# The capacity pool

The sized buckets of a catalog, the demand a start makes on them, the admission test and the
order of the queue. The pool holds no state: the rows and the spent units are passed in.
-/

namespace Dsl41.Oracle

open Dsl41.Infra Dsl41.Store

/-- Instants are microseconds on the engine's clock. -/
abbrev Instant := Int

/-- The rows of the jobs, without their revisions. -/
abbrev Rows := Dict String (JobFields Instant)

/-- What one requirement does to a bucket: hold units until its policy gives them back, or only
test a level. -/
inductive DemandMode where
  | acquire (policy : ReleasePolicy)
  | gate
deriving DecidableEq, Repr

/-- An entry of a demand vector. -/
structure DemandEntry where
  bucket : String
  units : Nat
  units_pos : 0 < units
  mode : DemandMode

instance decidableEqDemandEntry : DecidableEq DemandEntry := fun a b =>
  decidable_of_iff (a.bucket = b.bucket ∧ a.units = b.units ∧ a.mode = b.mode) (by cases a; cases b; simp)

/-- `_MACHINE`. -/
def machineBucket : String := "m:"

def DemandEntry.isMachineLoad (e : DemandEntry) : Bool := machineBucket.isPrefixOf e.bucket

/-- `without_machine_load`. -/
def withoutMachineLoad (vector : List DemandEntry) : List DemandEntry :=
  vector.filter fun e => !e.isMachineLoad

/-- `takes_machine_load`. -/
def takesMachineLoad (vector : List DemandEntry) : Bool := vector.any (·.isMachineLoad)

/-- `machine_load`. -/
def machineLoad (vector : List DemandEntry) : List DemandEntry := vector.filter (·.isMachineLoad)

/-- The reservation of an acquiring entry. -/
def DemandEntry.reservation (e : DemandEntry) : Option CapacityReservation :=
  match e.mode with
  | .acquire policy =>
    some { bucket := e.bucket, units := e.units, units_pos := e.units_pos, releasePolicy := policy }
  | .gate => none

/-- `to_reservations`. -/
def toReservations (vector : List DemandEntry) : List CapacityReservation :=
  vector.filterMap DemandEntry.reservation

/-! ## What a requirement demands -/

/-- `resource_type`: stripped and in upper case; empty when undeclared or absent. -/
def resourceType (resource : Option ResourceIR) : String :=
  match resource.bind (·.resType) with
  | some text => String.ofList ((strip text.toList).map Char.toUpper)
  | none => ""

/-- `_FREE_POLICY`. -/
def FreeCode.policy : FreeCode → ReleasePolicy
  | y => .success
  | n => .never
  | a => .completion

def RenewableFree.policy : RenewableFree → ReleasePolicy
  | y => .success
  | a => .completion

/-- `release_policy`. -/
def releasePolicy (resType : String) (free : Option FreeCode) (renewableFree : RenewableFree) :
    ReleasePolicy :=
  match free with
  | some code => code.policy
  | none => if resType = "D" then .never else renewableFree.policy

/-- `requirement_demand`: a threshold is a gate. -/
def requirementDemand (resType : String) (free : Option FreeCode) (renewableFree : RenewableFree) :
    DemandMode :=
  if resType = "T" then .gate else .acquire (releasePolicy resType free renewableFree)

/-- `_merge_policy`: the more restrictive of two. -/
def mergePolicy : ReleasePolicy → ReleasePolicy → ReleasePolicy
  | .never, _ | _, .never => .never
  | .success, _ | _, .success => .success
  | .completion, .completion => .completion

/-- `merge_requirements`, on the modes. -/
def mergeModes : DemandMode → DemandMode → DemandMode
  | .acquire a, .acquire b => .acquire (mergePolicy a b)
  | .acquire a, .gate | .gate, .acquire a => .acquire a
  | .gate, .gate => .gate

/-- `job_demand`, folded from the first group of a resource on: an entry of that bucket takes the
next group's units. -/
def addGroup (bucket : String) (resType : String) (renewableFree : RenewableFree)
    (ref : ResourceRef) : List DemandEntry → List DemandEntry
  | [] => [{ bucket, units := ref.quantity, units_pos := ref.quantity_pos,
             mode := requirementDemand resType ref.free renewableFree }]
  | e :: rest =>
    if e.bucket = bucket then
      { bucket, units := e.units + ref.quantity, units_pos := Nat.add_pos_left e.units_pos _,
        mode := mergeModes e.mode (requirementDemand resType ref.free renewableFree) } :: rest
    else e :: addGroup bucket resType renewableFree ref rest

/-! ## The pool -/

/-- `CapacityPool`. `resources` are the catalog's with the ghosts beside them. -/
structure CapacityPool where
  jobs : Dict String JobIR
  resources : Dict String ResourceIR
  renewableFree : RenewableFree
  bucketCap : Dict String Int

/-- The buckets of the entities that size one. -/
def sized {α : Type} (key : String → String) (cap : α → Option Int) (entities : Dict String α)
    (buckets : Dict String Int) : Dict String Int :=
  entities.entries.foldl (fun buckets (name, entity) =>
    match cap entity with
    | some units => buckets.set (key name) units
    | none => buckets) buckets

/-- `_with_ghosts`, on the resources: a catalog's own win a name. -/
def withGhosts (own ghosts : Dict String ResourceIR) : Dict String ResourceIR :=
  own.entries.foldl (fun all (name, resource) => all.set name resource) ghosts

/-- The construction of the pool. -/
def CapacityPool.make (catalog : CatalogIR) (ghosts : Dict String ResourceIR)
    (renewableFree : RenewableFree) : CapacityPool :=
  let resources := withGhosts catalog.resources ghosts
  { jobs := catalog.jobs
    resources
    renewableFree
    bucketCap := sized (resourceBucket ++ ·) ResourceIR.capacityUnits resources
      (sized (machineBucket ++ ·) MachineIR.maxLoadUnits catalog.machines ∅) }

/-- `job_priority`. -/
def jobPriority (ir : JobIR) : Int := ir.priorityValue.getD 0

/-- `checks_load`. -/
def checksLoad (ir : JobIR) : Bool := 0 < jobPriority ir

namespace CapacityPool

variable (pool : CapacityPool)

/-- `_machine_key`. -/
def machineKey (ir : JobIR) : Option String :=
  (ir.machine.map (machineBucket ++ ·)).filter fun key => (pool.bucketCap.get? key).isSome

/-- `_machine_entry`. -/
def machineEntry (ir : JobIR) : Option DemandEntry :=
  match pool.machineKey ir with
  | none => none
  | some bucket =>
    let load := (ir.jobLoadUnits.getD 0).toNat
    if h : 0 < load then
      some { bucket, units := load, units_pos := h, mode := .acquire .completion }
    else none

/-- One group of `resources:`: an unsized resource adds nothing. -/
def addRef (vector : List DemandEntry) (ref : ResourceRef) : List DemandEntry :=
  let bucket := resourceBucket ++ ref.name
  if (pool.bucketCap.get? bucket).isSome then
    addGroup bucket (resourceType (pool.resources.get? ref.name)) pool.renewableFree ref vector
  else vector

/-- `demand_vector`: the machine's entry, then one entry for each sized resource. -/
def demandVector (ir : JobIR) : List DemandEntry :=
  ir.resources.foldl pool.addRef (pool.machineEntry ir).toList

/-- `_resource_entries`. -/
def resourceEntries (ir : JobIR) : List DemandEntry := withoutMachineLoad (pool.demandVector ir)

/-- `keeps_held`. -/
def keepsHeld (bucket : String) : Bool :=
  resourceBucket.isPrefixOf bucket &&
    resourceType (pool.resources.get? (bucket.drop 2).toString) ≠ "D"

end CapacityPool

/-- The units a row holds on a bucket. -/
def heldUnits (bucket : String) (reservations : List CapacityReservation) : Nat :=
  ((reservations.filter (·.bucket = bucket)).map (·.units)).sum

/-- `used`, at one bucket: the spent units and those the rows hold. `own` leaves one job's row
out. -/
def usedUnits (rows : Rows) (consumed : Dict String Int) (own : Option String) (bucket : String) :
    Int :=
  (consumed.get? bucket).getD 0 +
    ((rows.entries.filter fun e => own ≠ some e.1).map fun e => (heldUnits bucket e.2.reservations : Int)).sum

namespace CapacityPool

variable (pool : CapacityPool)

/-- One bucket has room for its demand. -/
def hasRoom (used : String → Int) (e : DemandEntry) : Bool :=
  (pool.bucketCap.get? e.bucket).any fun cap => used e.bucket + e.units ≤ cap

/-- `can_admit`. -/
def canAdmit (vector : List DemandEntry) (rows : Rows) (consumed : Dict String Int) (own : String) :
    Bool :=
  vector.all (pool.hasRoom (usedUnits rows consumed (some own)))

/-- The queued jobs of the catalog but one, with their records. -/
def otherWaiters (job : String) (rows : Rows) : List (String × JobFields Instant × JobIR) :=
  rows.entries.filterMap fun (name, row) =>
    if row.waiterSeq = none ∨ name = job then none
    else (pool.jobs.get? name).map fun other => (name, row, other)

/-- `_load_blocked`. -/
def loadBlocked (job : String) (ir : JobIR) (used : String → Int) (rows : Rows)
    (counts : String → Bool) : Bool :=
  match pool.machineKey ir with
  | none => false
  | some key =>
    0 < jobPriority ir &&
      (pool.otherWaiters job rows).any fun (name, _, other) =>
        (pool.machineEntry other).any (fun entry =>
          entry.bucket = key && !pool.hasRoom used entry) &&
        0 < jobPriority other && jobPriority other < jobPriority ir && counts name

/-- `_passed_load`. -/
def passedLoad (job : String) (ir : JobIR) (used : String → Int) (rows : Rows)
    (counts : String → Bool) : Bool :=
  (pool.machineEntry ir).all (pool.hasRoom used) && !pool.loadBlocked job ir used rows counts

/-- `resource_blocked`. -/
def resourceBlocked (job : String) (ir : JobIR) (rows : Rows) (consumed : Dict String Int)
    (counts : String → Bool) : Bool :=
  let named := (pool.resourceEntries ir).map (·.bucket)
  let used := usedUnits rows consumed none
  0 < jobPriority ir &&
    (pool.otherWaiters job rows).any fun (name, row, other) =>
      let entries := pool.resourceEntries other
      -- a waiter holding units from an earlier run counts them as its own
      let ownUsed := if row.reservations = [] then used else usedUnits rows consumed (some name)
      0 < jobPriority other && jobPriority other < jobPriority ir &&
        entries.any (fun e => e.bucket ∈ named) && entries.any (fun e => !pool.hasRoom ownUsed e) &&
        pool.passedLoad name other used rows counts && counts name

/-- `has_priority_waiters`. -/
def hasPriorityWaiters (rows : Rows) : Bool :=
  rows.entries.any fun (name, row) =>
    row.waiterSeq.isSome && (pool.jobs.get? name).any fun ir =>
      0 < jobPriority ir && ((pool.machineKey ir).isSome || !(pool.resourceEntries ir).isEmpty)

/-- `_UNSET_PRIORITY`. -/
def unsetPriority : Int := 2 ^ 31

/-- A waiter's place: its declared priority, its rank, its name. -/
def place (job : String) (rank : Nat) : Int ×ₗ Nat ×ₗ String :=
  toLex (((pool.jobs.get? job).bind JobIR.priorityValue).getD unsetPriority, toLex (rank, job))

/-- The queued jobs with their ranks, in the rows' order. -/
def waiting (rows : Rows) : List (String × Nat) :=
  rows.entries.filterMap fun e => e.2.waiterSeq.map fun rank => (e.1, rank)

/-- `sorted_waiters`: the queue in admission order. -/
def sortedWaiters (rows : Rows) : List String :=
  ((waiting rows).insertionSort fun (a b : String × Nat) =>
    pool.place a.1 a.2 ≤ pool.place b.1 b.2).map (·.1)

end CapacityPool

end Dsl41.Oracle
