import Dsl41.Runner.StoreCalls

/-!
# The two stores answer alike

A run of calls against both stores from empty. While no integer leaves the range of the database,
no text has a lone surrogate and no pruning instant fails to convert with a snapshot to delete,
every call answers or raises alike in both, a raising call changes neither, and both hold the
same rows.
-/

namespace Dsl41.Runner

open Infra Infra.Json Canon

/-- A call of either store. -/
inductive Op
  | append (records : List Record)
  | readFrom (seq : Int)
  | lastSeq
  | findRequest (request_id : Str)
  | putConfig (data : ByteArray) (digest : Str)
  | findConfig (digest : Str)
  | getConfig (rev : Int)
  | currentConfigRev
  | putSnapshot (seq state_version : Int) (data : ByteArray)
  | latestSnapshot
  | pruneBefore (seq : Int) (older_than : Instant)

/-- What a call returns. -/
inductive Answer
  | int (n : Int)
  | records (rows : List (Int × Record))
  | record (found : Option Record)
  | rev (found : Option Int)
  | data (bytes : ByteArray)
  | snapshot (found : Option Snapshot)
  | none

def Op.memory : Op → Effect Error MemoryStore Answer
  | append records => Answer.int <$> MemoryStore.append records
  | readFrom seq => Answer.records <$> Effect.asks fun s => s.readFrom seq
  | lastSeq => Effect.asks fun s => .ok (.int s.lastSeq)
  | findRequest request_id => Answer.record <$> Effect.asks fun s => s.findRequest request_id
  | putConfig data digest => Answer.int <$> MemoryStore.putConfig data digest
  | findConfig digest => Answer.rev <$> Effect.asks fun s => .ok (s.findConfig digest)
  | getConfig rev => Answer.data <$> Effect.asks fun s => s.getConfig rev
  | currentConfigRev => Effect.asks fun s => .ok (.int s.currentConfigRev)
  | putSnapshot seq state_version data =>
    (fun _ => Answer.none) <$> MemoryStore.putSnapshot seq state_version data
  | latestSnapshot => Effect.asks fun s => .ok (.snapshot s.latestSnapshot)
  | pruneBefore seq older_than => Answer.int <$> MemoryStore.pruneBefore seq older_than

def Op.sqlite : Op → Effect Error SqliteStore Answer
  | append records => Answer.int <$> SqliteStore.append records
  | readFrom seq => Answer.records <$> Effect.asks fun s => s.readFrom seq
  | lastSeq => Effect.asks fun s => .ok (.int s.lastSeq)
  | findRequest request_id => Answer.record <$> Effect.asks fun s => s.findRequest request_id
  | putConfig data digest => Answer.int <$> SqliteStore.putConfig data digest
  | findConfig digest => Answer.rev <$> Effect.asks fun s => s.findConfig digest
  | getConfig rev => Answer.data <$> Effect.asks fun s => s.getConfig rev
  | currentConfigRev => Effect.asks fun s => .ok (.int s.currentConfigRev)
  | putSnapshot seq state_version data =>
    (fun _ => Answer.none) <$> SqliteStore.putSnapshot seq state_version data
  | latestSnapshot => Effect.asks fun s => .ok (.snapshot s.latestSnapshot)
  | pruneBefore seq older_than => Answer.int <$> SqliteStore.pruneBefore seq older_than

/-! ## Runs -/

/-- Every call of a run is answered alike, and both stores hold the same rows after it. -/
def RunAgrees (m : MemoryStore) (d : SqliteStore) : List Op → Prop
  | [] => True
  | op :: ops =>
    Alike op.memory op.sqlite m d ∧ SameRows (op.memory.after m) (op.sqlite.after d) ∧
      RunAgrees (op.memory.after m) (op.sqlite.after d) ops

/-- What a call is given stays within what the database holds, and the instant a pruning is
given converts, or the pruning fails before it deletes a snapshot. -/
def Op.Fits (m : MemoryStore) : Op → Prop
  | append records => m.lastSeq + records.length < 2 ^ 63
  | readFrom seq => Int64Range seq
  | lastSeq | currentConfigRev | latestSnapshot => True
  | findRequest request_id => isScalarString request_id = true
  | putConfig _ digest => isScalarString digest = true ∧ (m.configs.length : Int) + 1 < 2 ^ 63
  | findConfig digest => isScalarString digest = true
  | getConfig rev => Int64Range rev
  | putSnapshot seq state_version _ => seq ≤ m.lastSeq → -2 ^ 63 ≤ seq ∧ Int64Range state_version
  | pruneBefore seq older_than =>
    if older_than.converts then m.snapshots.entries = [] ∨ -2 ^ 63 ≤ seq
    else m.snapshots.entries.length ≤ 2

instance (op : Op) (m : MemoryStore) : Decidable (op.Fits m) :=
  match op with
  | .append _ => inferInstanceAs (Decidable (_ < _))
  | .readFrom _ | .getConfig _ => inferInstanceAs (Decidable (Int64Range _))
  | .lastSeq | .currentConfigRev | .latestSnapshot => inferInstanceAs (Decidable True)
  | .findRequest _ | .findConfig _ => inferInstanceAs (Decidable (_ = _))
  | .putConfig _ _ => inferInstanceAs (Decidable (_ ∧ _))
  | .putSnapshot _ _ _ => inferInstanceAs (Decidable (_ → _))
  | .pruneBefore _ _ => inferInstanceAs (Decidable (ite _ _ _))

/-- Every call of a run fits the store it meets. -/
def RunFits (m : MemoryStore) : List Op → Prop
  | [] => True
  | op :: ops => op.Fits m ∧ RunFits (op.memory.after m) ops

instance : ∀ (m : MemoryStore) (ops : List Op), Decidable (RunFits m ops)
  | _, [] => inferInstanceAs (Decidable True)
  | m, op :: ops =>
    have := instDecidableRunFits (op.memory.after m) ops
    inferInstanceAs (Decidable (op.Fits m ∧ RunFits (op.memory.after m) ops))

/-! ## The two stores -/

theorem Agree.call {m : MemoryStore} {d : SqliteStore} (h : Agree m d) {op : Op} (hfits : op.Fits m) :
    Matches op.memory op.sqlite m d := by
  cases op with
  | append records => exact (h.append hfits).map _
  | readFrom seq => exact (Matches.asks h (h.readFrom hfits)).map _
  | lastSeq => exact .asks h (congrArg (Except.ok ∘ Answer.int) h.last)
  | findRequest request_id => exact (Matches.asks h (h.findRequest hfits)).map _
  | putConfig data digest => exact (h.putConfig hfits.1 hfits.2).map _
  | findConfig digest => exact (Matches.asks h (h.findConfig hfits)).map _
  | getConfig rev => exact (Matches.asks h (h.getConfig hfits)).map _
  | currentConfigRev => exact .asks h (congrArg (Except.ok ∘ Answer.int) h.currentConfigRev)
  | putSnapshot seq state_version data => exact (h.putSnapshot hfits).map _
  | latestSnapshot => exact .asks h (congrArg (Except.ok ∘ Answer.snapshot) h.latestSnapshot)
  | pruneBefore seq older_than => exact (h.pruneBefore hfits).map _

theorem Agree.run {m : MemoryStore} {d : SqliteStore} (h : Agree m d) :
    ∀ {ops : List Op}, RunFits m ops → RunAgrees m d ops := by
  intro ops
  induction ops generalizing m d with
  | nil => exact fun _ => trivial
  | cons op ops ih =>
    rintro ⟨hop, hops⟩
    have hcall := h.call hop
    exact ⟨hcall.toAlike, hcall.agree.toSameRows, ih hcall.agree hops⟩

/-- In every run from empty stores whose calls fit, the two stores cannot be told apart. -/
theorem stores_agree (ops : List Op) (h : RunFits .empty ops) : RunAgrees .empty .empty ops :=
  agree_empty.run h

/-! ## Where they differ -/

/-- An `engine` record at the first instant of a year. -/
def engineRecord : Record where
  at_utc := .naive { year := 2026, month := 1, day := 1, hour := 0, minute := 0, second := 0, microsecond := 0 }
  kind := ofChars "engine".toList
  actor := none
  request_id := none
  payload := .mapping []

/-- Three records, a snapshot at each and a pruning. -/
def pruningRun (older_than : Instant) : List Op :=
  [.append [engineRecord, engineRecord, engineRecord], .putSnapshot 1 1 .empty,
    .putSnapshot 2 1 .empty, .putSnapshot 3 1 .empty, .pruneBefore 3 older_than]

theorem stores_agree_pruning :
    RunFits .empty (pruningRun engineRecord.at_utc) ∧
      RunAgrees .empty .empty (pruningRun engineRecord.at_utc) :=
  have h : RunFits .empty (pruningRun engineRecord.at_utc) := by decide +kernel
  ⟨h, stores_agree _ h⟩

/-- An instant before the first one of the calendar, a request id with a lone surrogate and a rev
past the integers of the database. -/
theorem stores_disagree : ¬RunAgrees .empty .empty (pruningRun (.aware none)) ∧
    ¬RunAgrees .empty .empty [.findRequest [.surrogate 0]] ∧
    ¬RunAgrees .empty .empty [.getConfig (2 ^ 63)] := by
  refine ⟨?_, ?_, ?_⟩
  · rintro ⟨-, -, -, -, -, -, -, -, -, hrows, -⟩
    have hlen := hrows.snapshots.length_eq
    revert hlen
    decide +kernel
  · rintro ⟨hcall, -⟩
    have hresult := hcall.result
    cases hresult
  · rintro ⟨hcall, -⟩
    have hresult := hcall.result
    cases hresult

end Dsl41.Runner
