import Dsl41.Oracle.Inputs

/-!
# Construction, the catalog's swap, and runs

An oracle is constructed over a catalog, fresh or with the rows a period carries on, and then
takes calls: inputs, and swaps of its catalog between them. A call that raises leaves what it
changed; one that runs out of the fuel of a loop has not ended, and no call follows it.
-/

namespace Dsl41.Oracle

open Dsl41.Infra Dsl41.Store

/-- `CarriedRows`, with what the oracle takes of it beside the owner. -/
structure Carried extends CarriedRows Instant Scalar where
  wakeOwed : Bool := false
  ghosts : Dict String ResourceIR := ∅
  periodId : Int := 1
  now : Option Instant := none

/-- The tables an oracle runs under: a swap replaces them all. -/
structure Settings where
  catalog : CatalogIR
  semantics : SemanticSwitches := {}
  clock : ClockReads

/-! ## The cap -/

def ITEMS_PER_JOB_SQUARED : Nat := 4
def ITEM_FLOOR : Nat := 100000
def ITEM_CEILING : Nat := 400000

/-- `item_cap`. -/
def itemCap (jobs : Nat) : Nat :=
  min (max ITEM_FLOOR (ITEMS_PER_JOB_SQUARED * jobs * jobs)) ITEM_CEILING

/-- The cap of a catalog. -/
def CatalogIR.cap (catalog : CatalogIR) : Nat := itemCap catalog.jobs.entries.length

/-! ## Construction -/

/-- The flags a definition seeds. -/
def seedsFlag (ir : JobIR) (flag : InitialStatus) : Bool := ir.sem.initialStatus = some flag

def seedJobs (carried : Dict String (JobRuntime Instant)) :
    List (String × JobIR) → RuntimeM Instant Scalar Unit
  | [] => pure ()
  | (name, ir) :: rest => do
    if (carried.get? name).isNone then
      RuntimeState.seedJob name (seedsFlag ir .onIce) (seedsFlag ir .onHold) (seedsFlag ir .onNoexec)
    seedJobs carried rest

def seedGlobals (carried : Dict String GlobalRuntime) :
    List (String × String) → RuntimeM Instant Scalar Unit
  | [] => pure ()
  | (name, value) :: rest => do
    if (carried.get? name).isNone then RuntimeState.setGlobal name value
    seedGlobals carried rest

/-- Carried rows install before the genesis seed, which skips them. -/
def genesis (catalog : CatalogIR) (carried : Option Carried) : RuntimeM Instant Scalar Unit := do
  match carried with
  | some c => RuntimeState.install c.toCarriedRows
  | none => pure ()
  RuntimeState.beginInput
  seedJobs (carried.elim ∅ (·.jobs)) catalog.jobs.entries
  seedGlobals (carried.elim ∅ (·.globals)) catalog.globalsDeclared.entries
  discard RuntimeState.commitInput
  RuntimeState.finishGenesis
  match carried with
  | some c => RuntimeState.seedPeriod c.periodId
  | none => pure ()
  RuntimeState.keepJobInstances storeInstance

/-- The carried rows of jobs the catalog does not define that hold units while not live. -/
def removedHolders (catalog : CatalogIR) (rows : Dict String (JobRuntime Instant)) : List String :=
  ((rows.entries.filter fun (name, row) =>
    (catalog.jobs.get? name).isNone && row.reservations ≠ [] && !row.status.live).map
    (·.1)).insertionSort (· ≤ ·)

/-- The world an oracle opens with, over a state its owner has seeded. -/
def openWorld (s : Settings) (carried : Option Carried) (store : RuntimeState Instant Scalar) :
    World where
  catalog := s.catalog
  semantics := s.semantics
  clock := s.clock
  pool := CapacityPool.make s.catalog (carried.elim ∅ (·.ghosts)) s.semantics.renewableFree
  store := store
  now := carried.bind (·.now)
  openingRelease := carried.elim [] fun c => removedHolders s.catalog c.jobs
  wakeOwed := carried.any (·.wakeOwed)
  cap := s.catalog.cap

/-- `Oracle.__init__`: the oracle, or what its construction raises. -/
def construct (s : Settings) (carried : Option Carried) : Except StoreError Machine :=
  let m := genesis s.catalog carried
  match m.result {} with
  | .error e => .error e
  | .ok _ => .ok { executor := rebuilt (openWorld s carried (m.after {})) }

/-- The oracle a fresh construction gives. -/
def fresh (s : Settings) : Machine where
  executor := rebuilt (openWorld s none ((genesis s.catalog none).after {}))

/-! ## The swap -/

/-- `retyped_jobs`. -/
def retypedJobs (live candidate : CatalogIR) : List String :=
  (live.jobs.entries.filter fun (name, ir) =>
    (candidate.jobs.get? name).any (·.jobType ≠ ir.jobType)).map (·.1)

/-- The jobs one catalog has and the other has not, or has of another type, sorted. -/
def lost (live candidate : CatalogIR) : List String :=
  ((live.jobs.keys.filter fun name => (candidate.jobs.get? name).isNone) ++
    retypedJobs live candidate).insertionSort (· ≤ ·)

/-- The resources whose units the rows hold or that are spent. -/
def namedResources (store : RuntimeState Instant Scalar) : List String :=
  let held := store.jobs.entries.flatMap fun e => e.2.reservations.map (·.bucket)
  ((held ++ store.consumed.keys).filter (resourceBucket.isPrefixOf ·)).map fun bucket =>
    (bucket.drop 2).toString

/-- The definitions of the resources a catalog drops while units of them are held or spent. -/
def ghostResources (pool : CapacityPool) (catalog : CatalogIR)
    (store : RuntimeState Instant Scalar) : Dict String ResourceIR :=
  pool.resources.keep fun name =>
    name ∈ namedResources store && (catalog.resources.get? name).isNone

def retireJobs (keepsHeld : String → Bool) : List String → RuntimeM Instant Scalar Unit
  | [] => pure ()
  | job :: jobs => do
    discard (RuntimeState.retireJob job (some keepsHeld))
    retireJobs keepsHeld jobs

/-- An added job's row: the flags its definition seeds, and those its tombstone kept. -/
def admitJobs (catalog : CatalogIR) : List String → RuntimeM Instant Scalar Unit
  | [] => pure ()
  | job :: jobs => do
    let s ← get
    let kept := (s.tombstones.get? job).getD {}
    let seeds (flag : InitialStatus) : Bool := (catalog.jobs.get? job).any (seedsFlag · flag)
    RuntimeState.admitJob job (seeds .onIce || kept.onIce) (seeds .onHold || kept.onHold)
      (seeds .onNoexec || kept.onNoexec)
    admitJobs catalog jobs

/-- What refuses a swap before its first write. -/
def swapRefused (rows : Dict String (JobRuntime Instant)) (removed added retyped : List String) :
    Bool :=
  removed.any (fun job => (rows.get? job).isNone) ||
    added.any fun job => (rows.get? job).isSome && job ∉ retyped

/-- The world under other tables. -/
def World.swapped (w : World) (s : Settings) : World :=
  { w with
    catalog := s.catalog
    semantics := s.semantics
    clock := s.clock
    pool := CapacityPool.make s.catalog (ghostResources w.pool s.catalog w.store)
      s.semantics.renewableFree
    cap := s.catalog.cap }

/-- `replace_catalog`: the removed and the added names. -/
def replaceCatalog (s : Settings) : MachineM (List String × List String) := do
  onWorld (onStore (RuntimeState.requireBetweenInputs "replace_catalog" ""))
  let e : Machine ← get
  let w := e.world
  let removed := lost w.catalog s.catalog
  let added := lost s.catalog w.catalog
  if swapRefused w.store.jobs removed added (retypedJobs w.catalog s.catalog) then
    throw (.oracle "replace_catalog: refused before any write")
  onWorld (onStore (retireJobs w.pool.keepsHeld removed))
  changeWorld fun w => w.swapped s
  onWorld (onStore (admitJobs s.catalog added))
  onWorld (onStore RuntimeState.restoreInstances)
  modify fun e => Machine.setExecutor e (rebuilt { Machine.world e with wakeOwed := true })
  return (removed, added)

/-! ## Runs -/

/-- A call of the oracle. -/
inductive Call where
  | input (fuel : Nat) (at_ : Instant) (evs : List Event)
  | swap (settings : Settings)

def Call.run : Call → MachineM Unit
  | input fuel at_ evs => discard (Oracle.input fuel at_ evs)
  | swap settings => discard (replaceCatalog settings)

/-- The call returned or raised. -/
def Call.Ended (c : Call) (e : Machine) : Prop := c.run.result e ≠ .error .outOfFuel

/-- The oracle after some calls, each of which ended. -/
inductive After (e : Machine) : List Call → Machine → Prop
  | none : After e [] e
  | call {calls : List Call} {c : Call} {e' : Machine} (before : After e calls e')
      (ended : c.Ended e') : After e (calls ++ [c]) (c.run.after e')

end Dsl41.Oracle
