import Dsl41.Runner.Payload

/-!
# Records the engine knows

The record kinds with their events, and the check of a dispatch: its invocation, its literal
paths and its place in the sequence. The writer checks before it appends and every reader before
it acts on a record.
-/

namespace Dsl41.Runner

open Infra Infra.Json Canon

/-- The record kinds. -/
def KINDS : List Str :=
  ["input", "decision", "dispatch", "dispatch_pending", "outcome", "follow_up", "drop",
    "preflight", "config", "engine"].map name

/-- The `engine` record's events. -/
def ENGINE_EVENTS : List Str :=
  ["started", "draining", "clean_shutdown", "unclean_shutdown", "shutdown_during_startup",
    "drain_interrupted", "snapshot"].map name

def CONFIG_EVENTS : List Str := ["intent", "applied"].map name

/-- How an attempt ended. -/
def OUTCOMES : List Str := ["natural", "spawn_failed", "stopped", "unobservable"].map name

/-- The plans the interruption rule chooses. -/
def PLANS : List Str := ["complete", "hold", "rerun", "none"].map name

def INSTANCE_NAMES : List Str := ["AUTOSERV", "AUTOSYS", "AUTOUSER", "AUTOROOT"].map name

def STREAM_ATTRIBUTES : List Str := ["std_in_file", "std_out_file", "std_err_file"].map name

def GENERATED_NAMES : List Str :=
  ["DSL41_JOB", "DSL41_RUN_NUMBER", "DSL41_SCHEDULED_AT", "DSL41_ATTEMPT", "DSL41_RUN",
    "DSL41_COOKIE", "AUTO_JOB_NAME", "AUTORUN"].map name

/-! ## The grammars of names -/

def isWordStart (c : Char) : Bool := c.isAlpha || c = '_'

def isWord (c : Char) : Bool := c.isAlphanum || c = '_'

/-- `NAME`: an environment name. -/
def isEnvName (s : Str) : Bool :=
  match s with
  | .scalar c :: rest =>
    isWordStart c && rest.all fun d => match d with
      | .scalar d => isWord d
      | .surrogate _ => false
  | _ => false

def isHexDigit (c : Char) : Bool := c.isDigit || ('a' ≤ c && c ≤ 'f')

/-- The places of a `run_id`: a lower-case digit, the version, the variant, a dash. -/
def runIdPlace (i : Nat) (c : Char) : Bool :=
  if i = 8 ∨ i = 13 ∨ i = 18 ∨ i = 23 then c = '-'
  else if i = 14 then c = '4'
  else if i = 19 then c ∈ ['8', '9', 'a', 'b']
  else isHexDigit c

/-- `RUN_ID_RE`: the canonical text of a version 4 UUID. -/
def isValidRunId (s : Str) : Bool :=
  s.length = 36 && s.zipIdx.all fun e => match e.1 with
    | .scalar c => runIdPlace e.2 c
    | .surrogate _ => false

/-! ## The dispatch -/

def hasNul (s : Str) : Bool := s.contains (.scalar '\x00')

/-- A literal path of the host. -/
def isAbsolute (s : Str) : Bool := s.head? = some (.scalar '/')

def invalid (what : String) : Except Fault Unit := .error (.valueError ("invalid ".toList ++ what.toList))

def field? (body : Value) (key : Str) : Except Fault Value :=
  match Dict.getIn key (items body) with
  | some v => .ok v
  | none => .error (.keyError key)

/-- An integer that is at least `least`. -/
def checkInt (key : String) (least : Int) (value : Value) : Except Fault Unit :=
  match wireInt? value with
  | some i => if i < least then invalid key else .ok ()
  | none => invalid key

/-- A text without a null, or none. -/
def checkSpool : Value → Except Fault Unit
  | .none => .ok ()
  | .str spool => if hasNul spool then invalid "spool" else .ok ()
  | _ => invalid "spool"

def checkJob : Value → Except Fault Unit
  | .str job => if job = [] then invalid "job" else .ok ()
  | _ => invalid "job"

def checkAttempt : Value → Except Fault Unit
  | .str attempt => if isValidRunId attempt then .ok () else invalid "attempt"
  | _ => .error .typeError

/-- Whether an entry binds an environment name to a text without a null. -/
def isEnvEntry (e : Str × Value) : Bool :=
  isEnvName e.1 && match e.2 with
    | .str v => !hasNul v
    | _ => false

def checkEnv (key : String) : Value → Except Fault Unit
  | .mapping entries => if entries.all isEnvEntry then .ok () else invalid key
  | _ => invalid key

/-- `str(n)` of an integer. -/
def intStr (i : Int) : Str := ofChars (intText i)

/-- The names an invocation carries of its dispatch, with their values. -/
def identity (job : Str) (run_number ordinal first_dispatch_seq : Int) : List (Str × Str) :=
  [(name "DSL41_JOB", job), (name "AUTO_JOB_NAME", job), (name "DSL41_RUN_NUMBER", intStr run_number),
    (name "DSL41_ATTEMPT", intStr ordinal),
    (name "AUTORUN", intStr first_dispatch_seq ++ .scalar '-' :: intStr ordinal)]

/-- The invocation names the dispatch it is of. -/
def checkIdentity (job run_number ordinal first env : Value) : Except Fault Unit :=
  match job, run_number, ordinal, first with
  | .str job, .int run_number, .int ordinal, .int first =>
    if (identity job run_number ordinal first).all fun e => equal (dictGet env e.1) (.str e.2) then .ok ()
    else .error (.valueError "invocation identity disagrees with dispatch".toList)
  | _, _, _, _ => .error .typeError

/-- Whether an entry is a literal path of the host, or none. -/
def isPathEntry (e : Str × Value) : Bool :=
  match e.2 with
  | .none => true
  | .str v => !hasNul v && isAbsolute v
  | _ => false

/-- The literal standard streams: all of them or none. -/
def checkPaths : Value → Except Fault Unit
  | .mapping entries =>
    if !(entries.isEmpty || (entries.length = STREAM_ATTRIBUTES.length &&
        STREAM_ATTRIBUTES.all fun key => (Dict.getIn key entries).isSome)) then invalid "paths"
    else if entries.all isPathEntry then .ok ()
    else invalid "absolute stream path"
  | _ => invalid "paths"

def checkCwd : Value → Except Fault Unit
  | .str cwd => if hasNul cwd || !isAbsolute cwd then invalid "cwd" else .ok ()
  | _ => invalid "cwd"

variable (L : Library)

/-- The run tag names the dispatch's attempt, job and run. -/
def checkTag (attempt job run_number tag : Value) : Except Fault Unit :=
  match tag with
  | .str text =>
    if text = [] then .error (.valueError "missing DSL41_RUN".toList)
    else
      match L.runTag text with
      | none => .error (.valueError [])
      | some (.mapping held) =>
        if equal (dictGet (.mapping held) (name "run_id")) attempt &&
            equal (dictGet (.mapping held) (name "job")) job &&
            equal (dictGet (.mapping held) (name "run_number")) run_number then .ok ()
        else .error (.valueError "DSL41_RUN disagrees with dispatch".toList)
      | some _ => .error (.valueError "DSL41_RUN disagrees with dispatch".toList)
  | _ => .error (.valueError "missing DSL41_RUN".toList)

def checkInstant : Value → Except Fault Unit
  | .str text => if (L.fromisoformat text).isSome then .ok () else .error (.valueError [])
  | _ => .error .typeError

/-- The names a job inherits are none the invocation sets. -/
def checkInherited (inherited env : Value) : Except Fault Unit :=
  if (items inherited).any fun e =>
      (Dict.getIn e.1 (items env)).isSome || e.1 ∈ GENERATED_NAMES ++ INSTANCE_NAMES then
    invalid "referenced inherited names"
  else .ok ()

def dispatchFault (body : Value) : Except Fault Unit := do
  let first ← field? body (name "first_dispatch_seq")
  checkInt "first_dispatch_seq" 1 first
  let run_number ← field? body (name "run_number")
  checkInt "run_number" 1 run_number
  let ordinal ← field? body (name "ordinal")
  checkInt "ordinal" 1 ordinal
  checkInt "rev" 0 (← field? body (name "rev"))
  checkSpool (← field? body (name "spool"))
  let job ← field? body (name "job")
  checkJob job
  let attempt ← field? body (name "attempt")
  checkAttempt attempt
  let env ← field? body (name "env")
  checkEnv "env" env
  let inherited ← field? body (name "inherited")
  checkEnv "inherited" inherited
  checkIdentity job run_number ordinal first env
  checkTag L attempt job run_number (dictGet env (name "DSL41_RUN"))
  checkInstant L (← field? env (name "DSL41_SCHEDULED_AT"))
  checkInstant L (← field? body (name "started_at"))
  checkInherited inherited env
  checkCwd (← field? body (name "cwd"))
  checkPaths (← field? body (name "paths"))

/-- Require the durable invocation and the literal paths of a dispatch. -/
def checkDispatch (body : Value) : Except Error Unit :=
  (dispatchFault L body).mapError fun cause => .engineError (.dispatchData cause)

/-- A number of a body. -/
def intItem (body : Value) (key : Str) : Except Error Int := do
  match number? (← item body key) with
  | some i => return i
  | none => throw .typeError

/-- Whether the job's latest dispatch is of the same run. -/
def sameRun (body : Value) : Option Value → Except Error Bool
  | none => .ok false
  | some prior => do
    let run_number ← item prior (name "run_number")
    return equal run_number (← item body (name "run_number"))

/-- A replacement keeps the seq of its run's first dispatch. -/
def checkReplacement (body : Value) (first : Int) : Option Value → Except Error Unit
  | none => .ok ()
  | some prior => do
    let same ← sameRun body (some prior)
    let held ← item prior (name "first_dispatch_seq")
    if same && !equal held (.int first) then .error (.engineError .replacementSequence) else .ok ()

/-- The place of a dispatch in the sequence; `history` reads one that was accepted before. -/
def checkDispatchSeq (body : Value) (seq : Int) (prior : Option Value) (history : Bool) :
    Except Error Unit := do
  let first ← intItem body (name "first_dispatch_seq")
  let ordinal ← intItem body (name "ordinal")
  let same ← sameRun body prior
  if first > seq || (!history && ordinal = 1 && first ≠ seq && !same) then
    .error (.engineError .dispatchSequence)
  else checkReplacement body first prior

/-! ## The record -/

/-- The environment of a replacement names the instant it was scheduled at. -/
def checkReplacementEnv (env : Value) : Except Error Unit :=
  match env with
  | .mapping _ =>
    match dictGet env (name "DSL41_SCHEDULED_AT") with
    | .str _ => .ok ()
    | _ => .error (.engineError .replacementEnv)
  | _ => .error (.engineError .replacementEnv)

def checkStep (step : Value) : Except Error Unit := do
  if equal (← getOf step (name "step")) (.str (name "dispatch")) then
    checkReplacementEnv (dictGet step (name "env"))
  else .ok ()

def checkSteps (steps : Value) : Except Error Unit := do (← elements steps).forM checkStep

def isEvent (body : Value) (event : String) : Bool := equal (dictGet body (name "event")) (.str (name event))

/-- The value of a key is one of the names the kind knows. -/
def checkNamed (kind : Str) (body : Value) (key : String) (names : List Str) : Except Error Unit := do
  let value := dictGet body (name key)
  if ← oneOf value names then .ok () else .error (.engineError (.event (.str kind) value))

def checkWhen (cond : Bool) (check : Except Error Unit) : Except Error Unit :=
  if cond then check else .ok ()

/-- Refuse, by name, a record this binary does not know. -/
def checkRecord (record : Record) : Except Error Unit := do
  let kind := record.kind
  let body := record.payload
  checkWhen (kind = name "dispatch") (checkDispatch L body)
  checkWhen (kind = name "follow_up" && isEvent body "plan")
    (checkSteps ((Dict.getIn (name "steps") (items body)).getD (.list [])))
  checkWhen (kind ∉ KINDS) (.error (.engineError (.kind kind)))
  checkWhen (kind = name "engine") (checkNamed kind body "event" ENGINE_EVENTS)
  checkWhen (kind = name "config") (checkNamed kind body "event" CONFIG_EVENTS)
  checkWhen (kind = name "outcome") (checkNamed kind body "outcome" OUTCOMES)
  checkWhen (kind = name "follow_up" && isEvent body "plan") (checkNamed kind body "plan" PLANS)

/-! ## The wire -/

/-- The keys of the wire's `segment` record. -/
def SEGMENT_KEYS : List Str :=
  ["rev", "at", "catalog_hash", "runtime_hash", "state_machine_version", "baseline_id",
    "clock_domain"].map name

/-- `wire |= entries`. -/
def updated (wire entries : List (Str × Value)) : List (Str × Value) :=
  entries.foldl (fun wire e => Dict.setIn e.1 e.2 wire) wire

def wireInput (body : Value) : Except Error Value := do
  let sort := if equal (dictGet body (name "kind")) .none then "advance" else "input"
  let index ← item body (name "index")
  return .mapping (updated [(name "rec", .str (name sort)), (name "seq", index)]
    ((items body).filter fun e => decide (e.1 ≠ name "index")))

def wireDecision (body : Value) : Except Error Value := do
  let index ← item body (name "index")
  let request_id ← item body (name "request_id")
  let decision ← item body (name "decision")
  return .mapping [(name "rec", .str (name "decision")), (name "index", index),
    (name "request_id", request_id), (name "decision", decision),
    (name "reason", dictGet body (name "reason")), (name "code", dictGet body (name "code")),
    (name "revisions", orEmpty (dictGet body (name "revisions"))), (name "legacy_batch", .bool false)]

def wireDispatch (body : Value) : Except Error Value := do
  let job ← item body (name "job")
  let run_number ← item body (name "run_number")
  let attempt ← item body (name "attempt")
  let started_at ← item body (name "started_at")
  let rev ← item body (name "rev")
  let wire := [(name "rec", .str (name "dispatch")), (name "job", job), (name "run_number", run_number),
    (name "run_id", attempt), (name "run_dir", dictGet body (name "spool")), (name "started_at", started_at),
    (name "rev", rev)]
  match Dict.getIn (name "after") (items body) with
  | some stop => return .mapping (wire ++ [(name "after", stop)])
  | none => return .mapping wire

/-- The record in the shape the wire sends it, or none for a kind the wire does not carry. -/
def wireRecord (record : Record) : Except Error (Option Value) := do
  checkRecord L record
  let kind := record.kind
  let body := record.payload
  if kind = name "input" then return some (← wireInput body)
  else if kind = name "decision" then return some (← wireDecision body)
  else if kind = name "dispatch" then return some (← wireDispatch body)
  else if kind = name "drop" ∨ kind = name "preflight" then
    return some (.mapping (updated [(name "rec", .str kind)] (items body)))
  else if kind = name "config" && isEvent body "applied" then
    return some (.mapping ((name "rec", .str (name "segment")) ::
      SEGMENT_KEYS.filterMap fun key => (Dict.getIn key (items body)).map fun v => (key, v)))
  else return none

end Dsl41.Runner
