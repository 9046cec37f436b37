import Dsl41.Infra.Effect
import Dsl41.Watch.Log

/-!
# The file watcher

A watch polls a path, or the matches of a pattern, until what it observes is stable. Each poll's
line is appended before the watch moves; a watch that finds a log goes on from it.
-/

namespace Dsl41.Watch

open Infra Infra.Json Infra.Effect Canon Runner

/-! ## Jobs and observations -/

inductive FwExistence
  | stable | immediate
deriving DecidableEq

structure FwSpec where
  watch_file : Str
  watch_interval : Option Int := none
  watch_file_min_size : Option Int := none

structure FileWatcherAdapter where
  default_interval_s : Int := 60
  existence : FwExistence := .stable

structure Stat where
  st_dev : Nat
  st_ino : Nat
  st_size : Nat
  st_mtime_ns : Int
  st_ctime_ns : Int

/-- The file system at a poll. An empty path names no file. -/
structure World where
  iglob : Str → List Str
  stat : Str → Option Stat
  no_empty : stat [] = none

/-- What one poll sees: the size at the path, or the files that match. -/
inductive Observation
  | size (size : Option Int)
  | files (files : List FileObservation)

section Job

variable (adapter : FileWatcherAdapter) (spec : FwSpec)

/-- `watch_interval or default_interval_s`. -/
def interval : Int :=
  match spec.watch_interval with
  | some i => if i = 0 then adapter.default_interval_s else i
  | none => adapter.default_interval_s

/-- `watch_file_min_size or 0`. -/
def min_size : Int := spec.watch_file_min_size.getD 0

def fw_no_min_size : Bool := spec.watch_file_min_size.getD 0 = 0

def fw_existence_immediate : Bool := adapter.existence = .immediate && fw_no_min_size spec

def is_pattern : Bool := spec.watch_file.any fun c => c = .scalar '*' ∨ c = .scalar '?'

/-- `glob.escape`. -/
def globEscape (path : Str) : Str := path.flatMap fun c =>
  if c = .scalar '*' ∨ c = .scalar '?' ∨ c = .scalar '[' then [.scalar '[', c, .scalar ']'] else [c]

def sample_path : Str := if is_pattern spec then spec.watch_file else globEscape spec.watch_file

/-- The matches in order: those with a UTF-8 name that are there and are large enough. -/
def observe_pattern (world : World) (pattern : Str) (min_size : Int) : List FileObservation :=
  ((world.iglob pattern).insertionSort (· ≤ ·)).filterMap fun path =>
    if !isScalarString path then none
    else
      match world.stat path with
      | none => none
      | some stat =>
        if min_size ≤ stat.st_size then
          some { path, device := stat.st_dev, inode := stat.st_ino, size := stat.st_size,
                 mtime_ns := stat.st_mtime_ns, ctime_ns := stat.st_ctime_ns }
        else none

/-! ## A watch -/

/-- What a watch knows: the size it saw and how often, or the samples of each file. -/
inductive Progress
  | exact (previous : Option Int) (stable : Nat) (first_poll_pending : Bool)
  | sampled (pattern : PatternWatchProgress)

def fresh : Progress := if is_pattern spec then .sampled {} else .exact none 0 true

def observe (world : World) : Progress → Observation
  | .exact .. => .size ((world.stat spec.watch_file).map fun stat => (stat.st_size : Int))
  | .sampled _ => .files (observe_pattern world (sample_path spec) (min_size spec))

/-- One poll: its line, the watch after it and whether it completes the watch. -/
def advance (run_id : Option Str) (poll_at : DateTime) :
    Progress → Observation → Except EngineError (Value × Progress × Bool)
  | .exact previous stable first_poll_pending, .size size =>
    let qualifying := size.any fun size => min_size spec ≤ size
    let stable := derive_stable stable previous size qualifying
    .ok (poll_record run_id poll_at size qualifying stable,
      .exact (if qualifying then size else none) stable false,
      FW_STABLE_POLLS ≤ stable || (fw_existence_immediate adapter spec && first_poll_pending && qualifying))
  | .sampled pattern, .files files => do
    let pattern ← fold_pattern_poll pattern files (fw_existence_immediate adapter spec)
    return (pattern_poll_record run_id poll_at files, .sampled pattern, pattern.complete)
  | _, _ => .error .mode

structure Watching where
  run_id : Option Str
  progress : Progress
  next_at : DateTime

/-- A watch, or its exit. -/
inductive Stage
  | polling (w : Watching)
  | returned

/-- A watch without a log takes one observation. -/
def Stage.feed : Stage → Moment × Observation → Except EngineError Stage
  | .returned, _ => .ok .returned
  | .polling w, (poll_at, observation) => do
    let (_, progress, complete) ← advance adapter spec w.run_id poll_at w.progress observation
    if complete then return .returned
    else return .polling { w with progress, next_at := plusSeconds poll_at (interval adapter spec) }

/-- The adapter that nothing interrupts, over some observations. -/
def uninterrupted (run_id : Option Str) (start_at : Moment) (polls : List (Moment × Observation)) :
    Except EngineError Stage :=
  polls.foldlM (Stage.feed adapter spec) (.polling { run_id, progress := fresh spec, next_at := start_at })

/-! ## A watch with a log -/

/-- What ends a run early. -/
inductive Stop
  | crashed
  | raised (error : EngineError)

/-- A computation over the log's file. -/
abbrev LogM := Effect Stop (Option Bytes)

def raising {α : Type} (x : Except EngineError α) : LogM α := Effect.ofExcept (x.mapError .raised)

/-- Append a line. A crash leaves as many of its bytes as `cut` says. -/
def append_watch_line (cut : Option Nat) (record : Value) : LogM Unit := do
  let data ← raising (lineOf record)
  match cut with
  | none => modify fun file => some (file.getD [] ++ data)
  | some k => do
    modify fun file => some (file.getD [] ++ data.take k)
    throw .crashed

/-- The watch a log leaves. -/
def resume (log : WatchLog) : Stage :=
  let progress : Progress :=
    if is_pattern spec || log.pattern.isSome then
      .sampled (log.pattern.getD { polls := log.watch_seq - 1 })
    else
      .exact (if log.qualifying then log.size else none) log.stable_polls (log.watch_seq = 1)
  if log.complete || (fw_existence_immediate adapter spec && log.watch_seq = 2 && log.qualifying) then .returned
  else .polling { run_id := log.run_id, progress, next_at := log.next_poll_at (interval adapter spec) }

/-- The adapter starts at an instant, on the log it finds. -/
def launch (run_id : Option Str) (now : Moment) (cut : Option Nat) : LogM Stage := do
  let log ← raising (read_watch_log (← get))
  match log with
  | none =>
    modify repair_tail
    append_watch_line cut (start_record run_id now)
    return .polling { run_id, progress := fresh spec, next_at := now }
  | some log =>
    if run_id ≠ none ∧ log.run_id ≠ run_id then throw (.raised (.stranger log.run_id run_id))
    modify repair_tail
    return resume adapter spec log

/-- One poll of a watch with a log: the line is appended before the watch moves. -/
def poll (w : Watching) (poll_at : Moment) (world : World) (cut : Option Nat) : LogM Stage := do
  let observation := observe spec world w.progress
  let (record, progress, complete) ← raising (advance adapter spec w.run_id poll_at w.progress observation)
  append_watch_line cut record
  if complete then return .returned
  else return .polling { w with progress, next_at := plusSeconds poll_at (interval adapter spec) }

/-! ## Runs -/

/-- A log's file and the adapter on it, with what was recorded: the dispatch, and each poll whose line
is whole. -/
structure System where
  file : Option Bytes := none
  watch : Option Stage := none
  started : Option (Option Str × Moment) := none
  recorded : List (Moment × Observation) := []

inductive Op
  | launch (run_id : Option Str) (now : Moment) (cut : Option Nat)
  | poll (poll_at : Moment) (world : World) (cut : Option Nat)
  | crash

/-- All of a line but its newline is written. -/
def landed (cut : Option Nat) (record : Value) : Bool :=
  match lineOf record with
  | .error _ => false
  | .ok data => cut.all fun k => data.length ≤ k + 1

/-- What happens to an adapter and its log. -/
def System.step (s : System) : Op → System
  | .launch run_id now cut =>
    match s.watch with
    | some _ => s
    | none =>
      let m := Watch.launch adapter spec run_id now cut
      { s with
        file := m.after s.file
        watch := (m.result s.file).toOption
        started :=
          match s.started with
          | some started => some started
          | none => if landed cut (start_record run_id now) then some (run_id, now) else none }
  | .poll poll_at world cut =>
    match s.watch with
    | some (.polling w) =>
      let m := Watch.poll adapter spec w poll_at world cut
      let observation := observe spec world w.progress
      { s with
        file := m.after s.file
        watch := (m.result s.file).toOption
        recorded :=
          match advance adapter spec w.run_id poll_at w.progress observation with
          | .ok (record, _) =>
            if landed cut record then s.recorded ++ [(poll_at, observation)] else s.recorded
          | .error _ => s.recorded }
    | _ => s
  | .crash => { s with watch := none }

def System.run (s : System) (ops : List Op) : System := ops.foldl (System.step adapter spec) s

end Job

end Dsl41.Watch
