import Dsl41.Infra.Effect
import Dsl41.Infra.Table
import Dsl41.Runner.Record

/-!
# The store over a database

The tables with what the database holds of them: integers of 64 bits, texts of Unicode scalar
values, row numbers that grow, a unique column, a sequence that no delete lowers, and
transactions that leave nothing behind when they are rolled back.
-/

namespace Dsl41.Runner

open Infra Infra.Json Canon

structure ConfigRow where
  at_utc : Option (List Char)
  digest : Str
  data : ByteArray
deriving DecidableEq

structure SnapshotRow where
  at_utc : Option (List Char)
  state_version : Int
  data : ByteArray
deriving DecidableEq

/-- The tables, and the row `sqlite_sequence` holds for the journal. -/
structure SqliteStore where
  journal : List (Int × Encoded)
  sequence : Option Int
  configs : List (Int × ConfigRow)
  snapshots : List (Int × SnapshotRow)

/-! ## What a statement binds -/

/-- The integers of the database. -/
def Int64Range (i : Int) : Prop := -2 ^ 63 ≤ i ∧ i < 2 ^ 63

instance (i : Int) : Decidable (Int64Range i) := inferInstanceAs (Decidable (_ ∧ _))

def bindInt (i : Int) : Except Error Int := if Int64Range i then .ok i else .error .overflowError

def bindText (s : Str) : Except Error Str :=
  if isScalarString s then .ok s else .error .unicodeEncodeError

def bindOptional : Option Str → Except Error (Option Str)
  | none => .ok none
  | some s => (bindText s).map some

/-- A constraint the database holds was violated. -/
def raiseStoreError (table : List Char) : Error → Error
  | .integrityError => .storeError (.constraint table)
  | e => e

namespace SqliteStore

def empty : SqliteStore where
  journal := []
  sequence := none
  configs := []
  snapshots := []

variable (s : SqliteStore)

/-- The number of the last row. -/
def maxRow {α : Type} (rows : List (Int × α)) : Option Int := rows.getLast?.map Prod.fst

/-- The high-water mark: the newest seq ever assigned, which a prune cannot lower. -/
def lastSeq : Int := s.sequence.getD 0

/-- The time of the newest journal row. -/
def journalTime : Option (List Char) := s.journal.getLast?.map fun r => r.2.at_utc

/-! ## The journal -/

/-- The insert of one row, under the next number of the sequence. -/
def insertJournal (row : Encoded) : Effect Error SqliteStore Unit := do
  let kind ← Effect.ofExcept (bindText row.kind)
  let actor ← Effect.ofExcept (bindOptional row.actor)
  let request_id ← Effect.ofExcept (bindOptional row.request_id)
  let s ← get
  let seq := s.lastSeq + 1
  if ¬Int64Range seq then throw .operationalError
  if request_id ≠ none ∧ request_id ∈ s.journal.map (fun r => r.2.request_id) then
    throw .integrityError
  modify fun s =>
    { s with
      journal := s.journal ++ [(seq, { row with kind, actor, request_id })]
      sequence := some seq }

def insertAll : List Encoded → Effect Error SqliteStore Unit
  | [] => pure ()
  | row :: rows => do
    insertJournal row
    insertAll rows

/-- The encoded records are written in one transaction. -/
def appendRows (encoded : List Encoded) : Effect Error SqliteStore Int :=
  if encoded = [] then do return (← get).lastSeq
  else
    Effect.atomically do
      (insertAll encoded).mapError (raiseStoreError "journal".toList)
      return (← get).lastSeq

def append (records : List Record) : Effect Error SqliteStore Int := do
  let encoded ← Effect.ofExcept (records.mapM encode)
  appendRows encoded

/-- Rows a read fetches per query. -/
def CHUNK : Nat := 500

def recordOf (r : Int × Encoded) : Except Error (Int × Record) := do
  let here ← record r.2
  return (r.1, here)

/-- The reading loop; every turn fetches a chunk after the last seq it read. -/
def readFrom.loop : Nat → Int → Except Error (List (Int × Record))
  | 0, _ => .ok []
  | n + 1, after => do
    let after ← bindInt after
    let rows := (rowsAfter after s.journal).take CHUNK
    match rows.getLast? with
    | none => return []
    | some (seq, _) =>
      let here ← rows.mapM recordOf
      let rest ← readFrom.loop n seq
      return here ++ rest

/-- The records after a seq, read to the end. -/
def readFrom (seq : Int) : Except Error (List (Int × Record)) :=
  readFrom.loop s (s.journal.length + 1) seq

def findRequest (request_id : Str) : Except Error (Option Record) := do
  let request_id ← bindText request_id
  match s.journal.find? fun r => decide (r.2.request_id = some request_id) with
  | none => return none
  | some (_, row) => (record row).map some

/-! ## Configurations -/

/-- The insert of a configuration's row, under the number after the last. (After the greatest
integer the database tries others at random.) -/
def insertConfig (data : ByteArray) (digest : Str) : Effect Error SqliteStore Int := do
  let digest ← Effect.ofExcept (bindText digest)
  let s ← get
  let rev := (maxRow s.configs).getD 0 + 1
  if ¬Int64Range rev then throw .operationalError
  modify fun s =>
    { s with configs := s.configs ++ [(rev, { at_utc := s.journalTime, digest, data })] }
  return rev

def putConfig (data : ByteArray) (digest : Str) : Effect Error SqliteStore Int :=
  Effect.atomically ((insertConfig data digest).mapError (raiseStoreError "configs".toList))

def findConfig (digest : Str) : Except Error (Option Int) := do
  let digest ← bindText digest
  return maxRow (s.configs.filter fun r => decide (r.2.digest = digest))

def getConfig (rev : Int) : Except Error ByteArray := do
  let number ← bindInt rev
  match s.configs.find? fun r => decide (r.1 = number) with
  | none => throw (.keyError (.inr rev))
  | some (_, row) => return row.data

def currentConfigRev : Int := (maxRow s.configs).getD 0

/-! ## Snapshots -/

/-- The insert of a snapshot's row, under its own number. -/
def insertSnapshot (seq state_version : Int) (data : ByteArray) :
    Effect Error SqliteStore Unit := do
  let seq ← Effect.ofExcept (bindInt seq)
  let state_version ← Effect.ofExcept (bindInt state_version)
  let s ← get
  if seq ∈ s.snapshots.map Prod.fst then throw .integrityError
  modify fun s =>
    { s with
      snapshots := s.snapshots.filter (fun r => decide (r.1 ≤ seq)) ++
        (seq, { at_utc := s.journalTime, state_version, data }) :: rowsAfter seq s.snapshots }

def putSnapshot (seq state_version : Int) (data : ByteArray) : Effect Error SqliteStore Unit :=
  Effect.atomically do
    let s ← get
    if seq > s.lastSeq then throw (.storeError (.snapshotAbove seq s.lastSeq))
    (insertSnapshot seq state_version data).mapError (raiseStoreError "snapshots".toList)

def latestSnapshot : Option Snapshot :=
  s.snapshots.getLast?.map fun r =>
    { seq := r.1, state_version := r.2.state_version, data := r.2.data }

/-! ## Pruning -/

/-- The two highest snapshot numbers. -/
def newestSnapshots : List Int := (s.snapshots.reverse.take 2).map Prod.fst

/-- Every snapshot but the latest two is deleted. -/
def retainSnapshots : SqliteStore :=
  { s with snapshots := s.snapshots.filter fun r => decide (r.1 ∈ s.newestSnapshots) }

/-- The first row, in seq order, that is not older than the text. -/
def firstRecent (cutoff : List Char) : Option Int :=
  (s.journal.find? fun r => decide (cutoff ≤ r.2.at_utc)).map Prod.fst

def pruneJournal (seq latest : Int) (older_than : Instant) : Effect Error SqliteStore Int := do
  let cutoff ← Effect.ofExcept (stamp older_than)
  let s ← get
  let bound ← Effect.ofExcept (bindInt (min (min seq latest) ((s.firstRecent cutoff).getD seq)))
  modify fun s => { s with journal := s.journal.filter fun r => decide (bound ≤ r.1) }
  return (s.journal.filter fun r => decide (r.1 < bound)).length

def pruneRows (seq : Int) (older_than : Instant) : Effect Error SqliteStore Int := do
  modify retainSnapshots
  match maxRow (← get).snapshots with
  | none => return 0
  | some latest => pruneJournal seq latest older_than

def pruneBefore (seq : Int) (older_than : Instant) : Effect Error SqliteStore Int :=
  Effect.atomically (pruneRows seq older_than)

end SqliteStore

end Dsl41.Runner
