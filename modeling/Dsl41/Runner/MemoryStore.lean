import Dsl41.Infra.Dict
import Dsl41.Infra.Effect
import Dsl41.Infra.Result
import Dsl41.Infra.Table
import Dsl41.Runner.Record

/-!
# The in-process store

`rehearse` and the tests run over it. Every call runs over the store it leaves, also where it
raises: what a call did before it raised stays done.
-/

namespace Dsl41.Runner

open Infra Infra.Json Canon

/-- A row under its seq. -/
abbrev MemRow := Int × Encoded

structure MemoryStore where
  rows : List MemRow
  next_seq : Int
  requests : Dict Str MemRow
  /-- The rev is the index plus one. -/
  configs : List (ByteArray × Str)
  snapshots : Dict Int Snapshot

namespace MemoryStore

def empty : MemoryStore where
  rows := []
  next_seq := 1
  requests := ∅
  configs := []
  snapshots := ∅

variable (s : MemoryStore)

def lastSeq : Int := s.next_seq - 1

/-! ## The journal -/

/-- Refuse a request id that is in the journal or earlier in the batch. -/
def checkRequests (requests : Dict Str MemRow) : List Str → List Encoded → Except Error Unit
  | _, [] => .ok ()
  | seen, row :: rows =>
    match row.request_id with
    | none => checkRequests requests seen rows
    | some id =>
      if requests.get? id ≠ none ∨ id ∈ seen then .error (.storeError (.requestTaken id))
      else checkRequests requests (id :: seen) rows

/-- One row more. -/
def push (row : Encoded) : MemoryStore :=
  { s with
    rows := s.rows ++ [(s.next_seq, row)]
    next_seq := s.next_seq + 1
    requests :=
      match row.request_id with
      | none => s.requests
      | some id => s.requests.set id (s.next_seq, row) }

/-- The encoded records are checked, then written. -/
def appendRows (encoded : List Encoded) : Effect Error MemoryStore Int := do
  let s ← get
  Effect.ofExcept (checkRequests s.requests [] encoded)
  modify fun s => encoded.foldl push s
  return (← get).lastSeq

def append (records : List Record) : Effect Error MemoryStore Int := do
  let encoded ← Effect.ofExcept (records.mapM encode)
  appendRows encoded

theorem appendRows_result (rows : List Encoded) : (appendRows rows).result s =
    (checkRequests s.requests [] rows).map fun _ => (rows.foldl push s).lastSeq := by
  simp only [appendRows, Effect.result_bind, Effect.result_get, Effect.after_get,
    Effect.result_ofExcept, Effect.after_ofExcept]
  cases checkRequests s.requests [] rows with
  | error e => rfl
  | ok u => rfl

theorem appendRows_after (rows : List Encoded) : (appendRows rows).after s =
    match checkRequests s.requests [] rows with
    | .ok _ => rows.foldl push s
    | .error _ => s := by
  simp only [appendRows, Effect.after_bind, Effect.result_get, Effect.after_get,
    Effect.result_ofExcept, Effect.after_ofExcept]
  cases checkRequests s.requests [] rows with
  | error e => rfl
  | ok u => rfl

theorem lastSeq_foldl_push (rows : List Encoded) :
    (rows.foldl push s).lastSeq = s.lastSeq + rows.length := by
  induction rows generalizing s with
  | nil => rw [List.foldl_nil, List.length_nil, Int.natCast_zero, Int.add_zero]
  | cons row rows ih =>
    have hpush : (s.push row).lastSeq = s.lastSeq + 1 := by
      simp only [lastSeq, push]
      omega
    rw [List.foldl_cons, ih, hpush, List.length_cons]
    push_cast
    omega

variable {s}

/-- An append that returns has written each record's row, one seq after the other. -/
theorem append_ok {records : List Record} {last : Int} (h : (append records).result s = .ok last) :
    ∃ encoded, records.mapM encode = .ok encoded ∧
      (append records).after s = encoded.foldl push s ∧ last = s.lastSeq + records.length := by
  obtain ⟨encoded, hencoded, h, hafter⟩ := Effect.bind_result_ok h
  rw [Effect.result_ofExcept] at hencoded
  rw [Effect.after_ofExcept] at h hafter
  have hafter : (append records).after s = (appendRows encoded).after s := hafter
  rw [appendRows_result] at h
  rw [appendRows_after] at hafter
  cases hcheck : checkRequests s.requests [] encoded with
  | error e =>
    rw [hcheck] at h
    cases h
  | ok u =>
    rw [hcheck] at h hafter
    cases h
    refine ⟨encoded, hencoded, hafter, ?_⟩
    rw [lastSeq_foldl_push, ← (mapM_inv hencoded).length_eq]

variable (s)

/-- The reading loop; a position per step, and every step takes one row. -/
def readFrom.loop : Nat → Int → Except Error (List (Int × Record))
  | 0, _ => .ok []
  | n + 1, after =>
    match s.rows[bisectRight (s.rows.map Prod.fst) after]? with
    | none => .ok []
    | some (seq, row) => do
      let here ← record row
      let rest ← readFrom.loop n seq
      return (seq, here) :: rest

/-- The records after a seq, read to the end. -/
def readFrom (seq : Int) : Except Error (List (Int × Record)) :=
  readFrom.loop s s.rows.length seq

def findRequest (request_id : Str) : Except Error (Option Record) :=
  match s.requests.get? request_id with
  | none => .ok none
  | some (_, row) => (record row).map some

/-! ## Configurations -/

def putConfig (data : ByteArray) (digest : Str) : Effect Error MemoryStore Int := do
  modify fun s => { s with configs := s.configs ++ [(data, digest)] }
  return (← get).configs.length

/-- The revs from `n` down. -/
def findConfig.loop (digest : Str) : Nat → Option Int
  | 0 => none
  | n + 1 =>
    match s.configs[n]? with
    | some (_, held) => if held = digest then some (n + 1) else findConfig.loop digest n
    | none => findConfig.loop digest n

def findConfig (digest : Str) : Option Int := findConfig.loop s digest s.configs.length

def getConfig (rev : Int) : Except Error ByteArray :=
  if 1 ≤ rev ∧ rev ≤ s.configs.length then
    match s.configs[(rev - 1).toNat]? with
    | some (data, _) => .ok data
    | none => .error (.keyError (.inr rev))
  else .error (.keyError (.inr rev))

def currentConfigRev : Int := s.configs.length

/-! ## Snapshots -/

def putSnapshot (seq state_version : Int) (data : ByteArray) : Effect Error MemoryStore Unit := do
  let s ← get
  if s.snapshots.get? seq ≠ none then throw (.storeError (.snapshotTaken seq))
  if seq > s.lastSeq then throw (.storeError (.snapshotAbove seq s.lastSeq))
  modify fun s => { s with snapshots := s.snapshots.set seq { seq, state_version, data } }

/-- `sorted(self._snapshots)`. -/
def sortedSnapshots : List Int := s.snapshots.keys.insertionSort (· ≤ ·)

/-- The snapshot under the highest key. -/
def latestSnapshot : Option Snapshot := s.sortedSnapshots.getLast?.bind s.snapshots.get?

/-! ## Pruning -/

/-- Every snapshot but the latest two is deleted. -/
def retainSnapshots : MemoryStore :=
  { s with
    snapshots := s.sortedSnapshots.dropLast.dropLast.foldl (fun held old => held.erase old)
      s.snapshots }

/-- The rows kept at a bound; a row below it frees its request id. -/
def freeBelow (bound : Int) : List MemRow → Effect Error MemoryStore (List MemRow)
  | [] => pure []
  | (seq, row) :: rows => do
    if seq < bound then
      match row.request_id with
      | none => pure ()
      | some id =>
        if (← get).requests.get? id = none then throw (.keyError (.inl id))
        modify fun s => { s with requests := s.requests.erase id }
      freeBelow bound rows
    else
      let kept ← freeBelow bound rows
      return (seq, row) :: kept

/-- The first seq whose row is not older than the text. -/
def firstRecent (cutoff : List Char) (rows : List MemRow) : Option Int :=
  (rows.find? fun r => decide (cutoff ≤ r.2.at_utc)).map Prod.fst

/-- The rows below the least of `seq`, the latest snapshot's seq and the first seq whose row is not
older than the instant are deleted. -/
def pruneJournal (seq latest : Int) (older_than : Instant) : Effect Error MemoryStore Int := do
  let cutoff ← Effect.ofExcept (stamp older_than)
  let s ← get
  let bound := min (min seq latest) ((firstRecent cutoff s.rows).getD seq)
  let kept ← freeBelow bound s.rows
  modify fun s => { s with rows := kept }
  return (s.rows.length : Int) - kept.length

def pruneBefore (seq : Int) (older_than : Instant) : Effect Error MemoryStore Int := do
  modify retainSnapshots
  match (← get).latestSnapshot with
  | none => return 0
  | some latest => pruneJournal seq latest.seq older_than

end MemoryStore

end Dsl41.Runner
