import Dsl41.Runner.Codec
import Dsl41.Runner.MemoryStore

/-!
# The journal

The one writer over a store. An append checks its records, writes them in one transaction and
folds them into the open table and the position. A snapshot holds both at the newest record.
-/

namespace Dsl41.Runner

open Infra Infra.Json Canon

variable (L : Library)

/-- The writer, over a store that no other writes. -/
structure Journal where
  store : MemoryStore
  openTable : OpenTable
  position : Position L

namespace Journal

variable {L} (j : Journal L)

def empty : Journal L where
  store := .empty
  openTable := .empty
  position := .empty

/-- Records with the seqs they take. -/
def numbered (first : Int) : List Record → List (Int × Record)
  | [] => []
  | record :: records => (first, record) :: numbered (first + 1) records

/-- What is checked of one record before anything is written; a dispatch takes its place among the
ones before it. -/
def checkOne (dispatches : Dict Str Value) (e : Int × Record) : Except Error (Dict Str Value) := do
  checkRecord L e.2
  if e.2.kind = name "dispatch" then
    let job ← OpenTable.stringOf (← item e.2.payload (name "job"))
    checkDispatchSeq e.2.payload e.1 (dispatches.get? job) false
    return dispatches.set job e.2.payload
  else return dispatches

mutual

/-- Whether the stream's encoder takes the value: it has no form for an instant. -/
def streamable : Value → Bool
  | .datetime _ | .other _ => false
  | .mapping entries => streamableEntries entries
  | .list vs => streamableItems vs
  | _ => true

def streamableEntries : List (Str × Value) → Bool
  | [] => true
  | (_, v) :: entries => streamable v && streamableEntries entries

def streamableItems : List Value → Bool
  | [] => true
  | v :: vs => streamable v && streamableItems vs

end

/-- The stream line of a record the wire carries. -/
def checkStream (wire : Option Value) : Except Error Unit :=
  if wire.all streamable then .ok () else .error .typeError

/-- One committed record folded in; the wire takes it after. -/
def noteOne (j : Journal L) (e : Int × Record) : Except Error (Journal L) := do
  let openTable ← j.openTable.note L e.1 e.2
  let position ← j.position.note e.2
  let wire ← wireRecord L e.2
  checkStream wire
  return { j with openTable, position }

/-- The records written to the store; the last seq. -/
def write (records : List Record) : Except Error (Int × MemoryStore) :=
  ((MemoryStore.append records).result j.store).map fun last =>
    (last, (MemoryStore.append records).after j.store)

/-- Append the records in one transaction. -/
def append (records : List Record) : Except Error (Journal L) := do
  let _ ← (numbered (j.store.lastSeq + 1) records).foldlM (checkOne (L := L)) j.openTable.dispatches
  let (last, store) ← j.write records
  (numbered (last - records.length + 1) records).foldlM noteOne { j with store }

/-- A run of appends. -/
def appends (batches : List (List Record)) : Except Error (Journal L) := batches.foldlM append j

end Journal

/-! ## The snapshot -/

/-- What a snapshot holds beside the open table and the position: the oracle's rows, the run
history, the evidence of interruptions, the revision and the log's own position. -/
structure Beside where
  oracle : Value
  runs : Value
  evidence : Value
  config_rev : Int
  committed_index : Int
  applied_index : Int
  instant : Option L.Instant

def STATE_MACHINE_VERSION : Int := 28

/-- The document of a snapshot. -/
def snapshotDocument (beside : Beside L) (openTable : OpenTable) (position : Position L) :
    Except Error Value := do
  let opened ← openTable.toPayload L
  return .mapping [(name "state_version", .int STATE_MACHINE_VERSION), (name "oracle", beside.oracle),
    (name "frontiers", .mapping [(name "committed_index", .int beside.committed_index),
      (name "applied_index", .int beside.applied_index),
      (name "at", Position.instantText beside.instant)]),
    (name "position", position.toPayload), (name "config_rev", .int beside.config_rev),
    (name "open", opened), (name "update", openTable.update.getD .none), (name "runs", beside.runs),
    (name "evidence", beside.evidence)]

/-- The snapshot's canonical bytes. -/
def encodeSnapshot (beside : Beside L) (openTable : OpenTable) (position : Position L) :
    Except Error ByteArray := do
  canon (canonicalBytes (← snapshotDocument L beside openTable position))

/-- The log's own position, as a snapshot holds it. -/
structure Frontiers where
  committed_index : Int
  applied_index : Int
  instant : Option L.Instant

/-- What is read back of a snapshot; the rows are what their validation makes of them. -/
structure Restored (Rows : Type) where
  rows : Rows
  frontiers : Frontiers L
  position : Position L
  config_rev : Int
  openTable : OpenTable
  runs : Value
  evidence : Value

/-- The indices are integers and a decision never leads its admission. -/
def frontiers (front : Value) : Except Error (Frontiers L) := do
  let committed ← item front (name "committed_index")
  let applied ← item front (name "applied_index")
  let instant ← Position.instant? (← item front (name "at"))
  match L.intField committed, L.intField applied with
  | some committed_index, some applied_index =>
    if applied_index > committed_index then throw (.valueError [])
    return { committed_index, applied_index, instant }
  | _, _ => throw (.valueError [])

/-- Every retained run names the configuration it opened under. -/
def checkRevs (runs : Value) : Except Error Unit :=
  (items runs).forM fun e => do
    (← elements e.2).forM fun run => do
      if (wireInt? (← getOf run (name "rev"))).isNone then throw (.valueError [])

/-- No retained dispatch lies beyond the snapshot. -/
def checkBeyond (seq : Int) (openTable : OpenTable) : Except Error Unit :=
  openTable.dispatches.entries.forM fun e => do
    if (← intItem e.2 (name "seq")) > seq then throw (.valueError [])

def readSnapshot {Rows : Type} (validate : Value → Option Rows) (seq : Int) (raw : Value) :
    Except Error (Restored L Rows) := do
  let version ← item raw (name "state_version")
  if wireInt? version ≠ some STATE_MACHINE_VERSION then throw (.valueError [])
  let front ← item raw (name "frontiers")
  let opened ← OpenTable.fromPayload L (← item raw (name "open"))
  checkBeyond seq opened
  let rows ← match validate (← item raw (name "oracle")) with
    | some rows => pure rows
    | none => throw (.valueError [])
  let frontiers ← frontiers L front
  let position ← Position.fromPayload (← item raw (name "position"))
  let config_rev ← pyInt L (← item raw (name "config_rev"))
  let runs ← pyDict (← item raw (name "runs"))
  checkRevs runs
  let evidence ← pyDict (orEmpty (dictGet raw (name "evidence")))
  return { rows, frontiers, position, config_rev, runs, evidence
           openTable := opened.withUpdate (dictGet raw (name "update")) }

/-- A stored snapshot read back; one that does not read is refused. -/
def decodeSnapshot {Rows : Type} (validate : Value → Option Rows) (seq : Int) (data : ByteArray) :
    Except Error (Restored L Rows) :=
  match canon (decode (.inl data)) >>= readSnapshot L validate seq with
  | .ok restored => .ok restored
  | .error e =>
    if e.cls ∈ [.canonError, .keyError, .typeError, .valueError] then
      .error (.engineError (.snapshot seq))
    else .error e

end Dsl41.Runner
