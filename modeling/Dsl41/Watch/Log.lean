import Dsl41.Infra.Json.Beginnings
import Dsl41.Infra.Lines
import Dsl41.Runner.Named
import Dsl41.Watch.Moments

/-!
# The log of a watch

One line for the dispatch, then one for each poll. What a watch has observed is the fold of its
log; an append that a crash cut short leaves a last line that is no JSON, which the fold drops and
the repair cuts off.
-/

namespace Dsl41.Watch

open Infra Infra.Json Canon Runner

abbrev Bytes := List UInt8

/-! ## Observations -/

structure FileObservation where
  path : Str
  device : Int
  inode : Int
  size : Int
  mtime_ns : Int
  ctime_ns : Int
deriving DecidableEq

structure PatternWatchProgress where
  previous : Dict Str FileObservation := ∅
  stable : Dict Str Nat := ∅
  polls : Nat := 0
  complete : Bool := false

inductive EngineError
  | emptyLine (position : Nat)
  | refused (position : Nat) (why : CanonError)
  | notObject (position : Nat)
  | version (position : Nat) (version : Value)
  | notStart (kind : Value)
  | startRunId
  | foreign (position : Nat) (run_id : Value) (started : Option Str)
  | kind (position : Nat) (kind : Value)
  | size (position : Nat) (size : Value)
  | qualifying (position : Nat)
  | exists (position : Nat)
  | existsSize (position : Nat) (present : Bool) (size : Option Int)
  | qualifyingNoSize (position : Nat)
  | stablePolls (position : Nat) (recorded : Value) (derived : Nat)
  | noTimestamp (kind : Value)
  | badTimestamp (text : Str)
  | sampleFiles
  | fileObservation
  | duplicatePath
  /-- An observation of a mode the watch is not in. -/
  | mode
  /-- The encoder refuses a line. -/
  | unwritable (why : CanonError)
  /-- The log names another run. -/
  | stranger (logged : Option Str) (run_id : Option Str)

def FW_STABLE_POLLS : Nat := 2

/-- A dictionary of observations by their paths. -/
def byPath (observations : List FileObservation) : Dict Str FileObservation :=
  Dict.setAll FileObservation.path id observations ∅

/-- Progress only from one complete observation. -/
def fold_pattern_poll (previous : PatternWatchProgress) (observations : List FileObservation) (immediate : Bool) :
    Except EngineError PatternWatchProgress :=
  let current := byPath observations
  if current.entries.length ≠ observations.length then .error .duplicatePath
  else
    let stable := current.mapValues fun entry =>
      if previous.previous.get? entry.path = some entry then (previous.stable.get? entry.path).getD 0 + 1 else 1
    let complete := previous.complete || (immediate && previous.polls = 0 && !current.entries.isEmpty) ||
      stable.entries.any fun e => FW_STABLE_POLLS ≤ e.2
    .ok { previous := current, stable, polls := previous.polls + 1, complete }

/-! ## Lines -/

def optional (text : Option Str) : Value :=
  match text with
  | none => .none
  | some s => .str s

/-- The fields of a line, with the version first. -/
def versioned (fields : List (String × Value)) : Value :=
  named (("artifact_format_version", .int ARTIFACT_FORMAT_VERSION) :: fields)

def start_record (run_id : Option Str) (start_at : DateTime) : Value :=
  versioned [("at", .datetime start_at), ("kind", .str (name "start")), ("run_id", optional run_id)]

def sizeOf (size : Option Int) : Value :=
  match size with
  | none => .none
  | some i => .int i

def poll_record (run_id : Option Str) (poll_at : DateTime) (size : Option Int) (qualifying : Bool) (stable : Nat) : Value :=
  versioned [("at", .datetime poll_at), ("exists", .bool size.isSome), ("kind", .str (name "poll")),
    ("qualifying", .bool qualifying), ("run_id", optional run_id), ("size", sizeOf size),
    ("stable_polls", .int stable)]

def fileOf (o : FileObservation) : Value :=
  named [("path", .str o.path), ("device", .int o.device), ("inode", .int o.inode), ("size", .int o.size),
    ("mtime_ns", .int o.mtime_ns), ("ctime_ns", .int o.ctime_ns)]

def pattern_poll_record (run_id : Option Str) (poll_at : DateTime) (observations : List FileObservation) : Value :=
  versioned [("kind", .str (name "sample")), ("run_id", optional run_id), ("at", .datetime poll_at),
    ("files", .list (observations.map fileOf))]

/-- A line is syntactically complete. -/
def is_json (line : Bytes) : Bool :=
  match line.toByteArray.utf8Decode? with
  | none => false
  | some text => (loads syntaxOnly (ofChars text.toList)).toOption.isSome

def newline : UInt8 := 10

/-! ## The fold -/

/-- The records of the lines; `torn` says that no newline follows the last one. -/
def read_records (torn : Bool) : Nat → List Bytes → Except EngineError (List Value)
  | _, [] => .ok []
  | position, line :: lines =>
    if line = [] then .error (.emptyLine position)
    -- the poll a torn last append recorded never landed
    else if lines.isEmpty && torn && !is_json line then .ok []
    else do
      let record ← (decode (.inl line.toByteArray)).mapError (.refused position)
      match record with
      | .mapping _ => return record :: (← read_records torn (position + 1) lines)
      | _ => throw (.notObject position)

def check_versions : Nat → List Value → Except EngineError Unit
  | _, [] => .ok ()
  | position, record :: records =>
    let version := dictGet record versionKey
    if equal version (.int ARTIFACT_FORMAT_VERSION) then check_versions (position + 1) records
    else .error (.version position version)

def watch_at (record : Value) : Except EngineError DateTime :=
  match dictGet record (name "at") with
  | .str text =>
    match unstamp (text.filterMap Code.char?) with
    | .ok d => .ok d
    | .error _ => .error (.badTimestamp text)
  | _ => .error (.noTimestamp (dictGet record (name "kind")))

/-- One observation of a sampled poll. -/
def watch_file (item : Value) : Except EngineError FileObservation :=
  match item with
  | .mapping _ =>
    match dictGet item (name "path") with
    | .str path =>
      if path = [] then .error .fileObservation
      else
        match dictGet item (name "device"), dictGet item (name "inode"), dictGet item (name "size"),
            dictGet item (name "mtime_ns"), dictGet item (name "ctime_ns") with
        | .int device, .int inode, .int size, .int mtime_ns, .int ctime_ns =>
          if device < 0 ∨ inode < 0 ∨ size < 0 then .error .fileObservation
          else .ok { path, device, inode, size, mtime_ns, ctime_ns }
        | _, _, _, _, _ => .error .fileObservation
    | _ => .error .fileObservation
  | _ => .error .fileObservation

def watch_files (record : Value) : Except EngineError (List FileObservation) :=
  match dictGet record (name "files") with
  | .list files => files.mapM watch_file
  | _ => .error .sampleFiles

/-- What the lines read so far derive. -/
structure Fold where
  last : Option Value := none
  derived_stable : Nat := 0
  previous_size : Option Int := none
  pattern : Option PatternWatchProgress := none

/-- A poll extends the stable count only with the size of the qualifying poll before it. -/
def derive_stable (stable : Nat) (previous size : Option Int) (qualifying : Bool) : Nat :=
  if qualifying && size = previous then stable + 1 else if qualifying then 1 else 0

def sizeField (position : Nat) (record : Value) : Except EngineError (Option Int) :=
  match dictGet record (name "size") with
  | .none => .ok none
  | .int i => .ok (some i)
  | size => .error (.size position size)

def boolField (record : Value) (key : Str) (error : EngineError) : Except EngineError Bool :=
  match dictGet record key with
  | .bool b => .ok b
  | _ => .error error

def fold_poll (position : Nat) (acc : Fold) (record : Value) : Except EngineError Fold := do
  let kind := dictGet record (name "kind")
  if !equal kind (.str (name "poll")) || acc.pattern.isSome then throw (.kind position kind)
  let size ← sizeField position record
  let qualifying ← boolField record (name "qualifying") (.qualifying position)
  let present ← boolField record (name "exists") (.exists position)
  if size.isNone ≠ !present then throw (.existsSize position present size)
  if qualifying && size.isNone then throw (.qualifyingNoSize position)
  let derived := derive_stable acc.derived_stable acc.previous_size size qualifying
  let recorded := dictGet record (name "stable_polls")
  if !equal recorded (.int derived) then throw (.stablePolls position recorded derived)
  return { acc with
    last := some record
    derived_stable := derived
    previous_size := if qualifying then size else none }

/-- A line after the start's. Scalar history closes the first poll's window but supplies no
samples. -/
def fold_record (run_id : Option Str) (position : Nat) (acc : Fold) (record : Value) : Except EngineError Fold := do
  let named := dictGet record (name "run_id")
  if !equal named (optional run_id) then throw (.foreign position named run_id)
  if equal (dictGet record (name "kind")) (.str (name "sample")) then
    let _ ← watch_at record
    let pattern := acc.pattern.getD { polls := position - 2 }
    let pattern ← fold_pattern_poll pattern (← watch_files record) false
    return { acc with last := some record, pattern := some pattern }
  fold_poll position acc record

def fold_records (run_id : Option Str) : Nat → Fold → List Value → Except EngineError Fold
  | _, acc, [] => .ok acc
  | position, acc, record :: records => do
    let acc ← fold_record run_id position acc record
    fold_records run_id (position + 1) acc records

/-- The log folded. -/
structure WatchLog where
  run_id : Option Str
  start_at : DateTime
  last_at : Option DateTime
  size : Option Int
  qualifying : Bool
  stable_polls : Nat
  watch_seq : Nat
  pattern : Option PatternWatchProgress := none

/-- The last line is a completing observation. -/
def WatchLog.complete (log : WatchLog) : Bool :=
  match log.pattern with
  | some pattern => pattern.complete
  | none => FW_STABLE_POLLS ≤ log.stable_polls

/-- The first poll is immediate; a later one follows the last by the interval. -/
def WatchLog.next_poll_at (log : WatchLog) (interval_s : Int) : DateTime :=
  match log.last_at with
  | none => log.start_at
  | some last_at => plusSeconds last_at interval_s

def lastSize (last : Value) : Option Int :=
  match dictGet last (name "size") with
  | .int i => some i
  | _ => none

def startRunId (start : Value) : Except EngineError (Option Str) :=
  match dictGet start (name "run_id") with
  | .none => .ok none
  | .str run_id => .ok (some run_id)
  | _ => .error .startRunId

/-- The log of what the lines derive. -/
def Fold.log (acc : Fold) (run_id : Option Str) (start_at : DateTime) (last_at : Option DateTime) (watch_seq : Nat) :
    WatchLog where
  run_id
  start_at
  last_at
  size := if acc.pattern.isNone then acc.last.bind lastSize else none
  qualifying :=
    match acc.pattern with
    | some pattern => !pattern.previous.entries.isEmpty
    | none => acc.last.any fun last => truthy (dictGet last (name "qualifying"))
  stable_polls :=
    match acc.pattern with
    | some pattern => (pattern.stable.entries.map Prod.snd).foldl max 0
    | none => acc.derived_stable
  watch_seq
  pattern := acc.pattern

/-- The log of the records, of which the first is the start's. -/
def foldLog (start : Value) (records : List Value) : Except EngineError WatchLog := do
  let kind := dictGet start (name "kind")
  if !equal kind (.str (name "start")) then throw (.notStart kind)
  let run_id ← startRunId start
  let acc ← fold_records run_id 2 {} records
  let start_at ← watch_at start
  let last_at ← acc.last.mapM watch_at
  return acc.log run_id start_at last_at (records.length + 1)

/-- The records of a file. -/
def read_lines (raw : Bytes) : Except EngineError (List Value) :=
  let lines := raw.splitOn newline
  let torn := lines.getLast? ≠ some []
  read_records torn 1 (if torn then lines else lines.dropLast)

/-- Fold a run's log, or none when the watch has not been dispatched. -/
def read_watch_log (file : Option Bytes) : Except EngineError (Option WatchLog) := do
  match file with
  | none => return none
  | some raw =>
    let records ← read_lines raw
    check_versions 1 records
    match records with
    | [] => return none
    | start :: records => return some (← foldLog start records)

/-! ## Writing -/

/-- Make an existing log end on a line boundary: a tail that parses lost only its newline, any other
is cut. -/
def repair_tail (file : Option Bytes) : Option Bytes :=
  match file with
  | none => none
  | some data =>
    if data.getLast? = none ∨ data.getLast? = some newline then some data
    else if is_json (lastLine newline data) then some (data ++ [newline])
    else some (wholeLines newline data)

/-- One canonical line. -/
def lineOf (record : Value) : Except EngineError Bytes :=
  match canonicalBytes record with
  | .ok bytes => .ok (bytes.data.toList ++ [newline])
  | .error why => .error (.unwritable why)

end Dsl41.Watch
