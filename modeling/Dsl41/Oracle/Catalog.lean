import Mathlib
import Dsl41.Infra.Dict
import Dsl41.Store.Rows

/-!
# The catalog, as the interpreter reads it

The condition algebra, the records of a catalog with the accessors of their opaque integers, the
semantic switches, and the check of the box tree that every catalog passes. A record's name is
its key. What only other tools read of a record (spans, annotations, variable sites) is left out.
-/

namespace Dsl41.Oracle

open Dsl41.Infra Dsl41.Store

/-! ## Conditions -/

inductive CmpOp where
  | eq | ne | lt | gt | le | ge
deriving DecidableEq, Repr

/-- `compare_int`. -/
def compareInt (left : Int) (op : CmpOp) (right : Int) : Bool :=
  match op with
  | .eq => left = right
  | .ne => left ≠ right
  | .lt => left < right
  | .gt => right < left
  | .le => left ≤ right
  | .ge => right ≤ left

/-- The digits of a decimal numeral: single underscores may stand between two digits. -/
def digitsFrom (acc : Nat) : List Char → Option Nat
  | [] => some acc
  | '_' :: c :: rest => if c.isDigit then digitsFrom (10 * acc + (c.toNat - '0'.toNat)) rest else none
  | c :: rest => if c.isDigit then digitsFrom (10 * acc + (c.toNat - '0'.toNat)) rest else none

/-- The value of a numeral: it begins with a digit. -/
def numeral : List Char → Option Nat
  | c :: rest => if c.isDigit then digitsFrom (c.toNat - '0'.toNat) rest else none
  | [] => none

def dropBlanks (l : List Char) : List Char := l.dropWhile Char.isWhitespace

/-- `str.strip` of blanks. -/
def strip (l : List Char) : List Char := (dropBlanks (dropBlanks l).reverse).reverse

/-- `int(text)`: a sign and a numeral between blanks; none where it raises. -/
def parseInt (text : String) : Option Int :=
  match strip text.toList with
  | '-' :: rest => (numeral rest).map fun n => -(n : Int)
  | '+' :: rest => (numeral rest).map fun n => (n : Int)
  | l => (numeral l).map fun n => (n : Int)

/-- `compare_value`: as integers when both parse, else as strings. -/
def compareValue (left : String) (op : CmpOp) (right : String) : Bool :=
  match parseInt left, parseInt right with
  | some l, some r => compareInt l op r
  | _, _ =>
    match op with
    | .eq => left = right
    | .ne => left ≠ right
    | .lt => left < right
    | .gt => right < left
    | .le => left ≤ right
    | .ge => right ≤ left

inductive Lookback where
  | window (minutes : Int)
  | zero
  | indefinite
deriving DecidableEq, Repr

structure JobRef where
  name : String
  instance_ : Option String := none
deriving DecidableEq, Repr

/-- `JobRef.key`. -/
def JobRef.key (ref : JobRef) : String :=
  match ref.instance_ with
  | none => ref.name
  | some i => ref.name ++ "^" ++ i

inductive AtomStatus where
  | success | failure | done | terminated | notRunning
deriving DecidableEq, Repr

structure StatusAtom where
  job : JobRef
  status : AtomStatus
  lookback : Option Lookback := none
deriving DecidableEq, Repr

structure ExitCodeAtom where
  job : JobRef
  op : CmpOp
  value : Int
  lookback : Option Lookback := none
deriving DecidableEq, Repr

structure GlobalAtom where
  name : String
  op : CmpOp
  value : String
deriving DecidableEq, Repr

inductive Atom where
  | status (a : StatusAtom)
  | exitCode (a : ExitCodeAtom)
  | global (a : GlobalAtom)
deriving DecidableEq, Repr

inductive Cond where
  | atom (a : Atom)
  | and (operands : List Cond)
  | or (operands : List Cond)
  | paren (inner : Cond)

namespace Cond

mutual

/-- `_cond_true`, over the truth of the atoms. -/
def holds (truth : Atom → Bool) : Cond → Bool
  | atom a => truth a
  | and operands => allHold truth operands
  | or operands => anyHolds truth operands
  | paren inner => holds truth inner

def allHold (truth : Atom → Bool) : List Cond → Bool
  | [] => true
  | c :: rest => holds truth c && allHold truth rest

def anyHolds (truth : Atom → Bool) : List Cond → Bool
  | [] => false
  | c :: rest => holds truth c || anyHolds truth rest

/-- `iter_atoms`: the atoms in source order. -/
def atoms : Cond → List Atom
  | atom a => [a]
  | and operands => atomsOf operands
  | or operands => atomsOf operands
  | paren inner => atoms inner

def atomsOf : List Cond → List Atom
  | [] => []
  | c :: rest => atoms c ++ atomsOf rest

end

end Cond

/-- The key of an atom's entity: a job, or a global. -/
def Atom.entityKey : Atom → String
  | status a => a.job.key
  | exitCode a => a.job.key
  | global a => "g:" ++ a.name

/-- `_entity_keys`: the entities a condition names. -/
def entityKeys (c : Cond) : List String := (c.atoms.map Atom.entityKey).dedup

/-- The local job an atom names. -/
def Atom.localJob : Atom → Option String
  | status a => if a.job.instance_ = none then some a.job.name else none
  | exitCode a => if a.job.instance_ = none then some a.job.name else none
  | global _ => none

/-- `_named_jobs`. -/
def namedJobs (c : Cond) : List String := c.atoms.filterMap Atom.localJob

/-! ## Records -/

inductive JobType where
  | cmd | box | fw
  | other (name : String)
deriving DecidableEq, Repr

structure Time where
  hour : Nat
  minute : Nat
deriving DecidableEq, Repr

structure BoxLinkage where
  boxName : Option String := none
  boxTerminator : Bool := false
  jobTerminator : Bool := false
deriving DecidableEq, Repr

/-- `SlaSpec`: absolute times or relative offsets, never both. -/
inductive SlaSpec where
  | absolute (times : List Time)
  | relative (offsetsMin : List Int)
deriving DecidableEq, Repr

structure ScheduleBlock where
  daysOfWeek : Option (List String) := none
  runCalendar : Option String := none
  excludeCalendar : Option String := none
  startTimes : Option (List Time) := none
  startMins : Option (List Int) := none
  runWindow : Option (Time × Time) := none
  timezone : Option String := none
  mustStart : Option SlaSpec := none
  mustComplete : Option SlaSpec := none
deriving DecidableEq, Repr

inductive InitialStatus where
  | inactive | onHold | onIce | onNoexec
deriving DecidableEq, Repr

/-- `exit_is_success`. A present, non-empty `fail_codes` decides alone. -/
def exitIsSuccess (exitCode maxExitSuccess : Int)
    (successCodes failCodes : Option (List (Int × Int))) : Bool :=
  let within (ranges : List (Int × Int)) := ranges.any fun (lo, hi) => lo ≤ exitCode ∧ exitCode ≤ hi
  match failCodes.getD [], successCodes with
  | r :: ranges, _ => !within (r :: ranges)
  | [], some ranges => within ranges
  | [], none => exitCode ≤ maxExitSuccess

structure Semantics where
  condition : Option Cond := none
  maxExitSuccess : Int := 0
  successCodes : Option (List (Int × Int)) := none
  failCodes : Option (List (Int × Int)) := none
  termRunTimeMin : Option Int := none
  boxSuccess : Option Cond := none
  boxFailure : Option Cond := none
  autoHold : Bool := false
  initialStatus : Option InitialStatus := none

/-- `Semantics.exit_is_success`. -/
def Semantics.exitIsSuccess (sem : Semantics) (exitCode : Int) : Bool :=
  Oracle.exitIsSuccess exitCode sem.maxExitSuccess sem.successCodes sem.failCodes

inductive FreeCode where
  | y | n | a
deriving DecidableEq, Repr

structure ResourceRef where
  name : String
  quantity : Nat
  quantity_pos : 0 < quantity := by decide
  free : Option FreeCode := none

instance decidableEqResourceRef : DecidableEq ResourceRef := fun a b =>
  decidable_of_iff (a.name = b.name ∧ a.quantity = b.quantity ∧ a.free = b.free) (by cases a; cases b; simp)

/-- `_lookup_ci`: the key itself, else the first key that reads the same in lower case. -/
def lookupCi (mapping : Dict String String) (key : String) : Option String :=
  (mapping.get? key).or
    ((mapping.entries.find? fun e => e.1.toList.map Char.toLower = key.toList.map Char.toLower).map
      (·.2))

/-- `_int_attr` through `_safe_units`: none when absent or malformed. -/
def safeUnits (mapping : Dict String String) (key : String) : Option Int :=
  (lookupCi mapping key).bind parseInt

structure JobIR where
  jobType : JobType
  box : BoxLinkage := {}
  schedule : Option ScheduleBlock := none
  machine : Option String := none
  sem : Semantics := {}
  passthrough : Dict String String := ∅
  resources : List ResourceRef := []

namespace JobIR

def isBox (ir : JobIR) : Bool := ir.jobType = .box

/-- `job_load_units`. -/
def jobLoadUnits (ir : JobIR) : Option Int := safeUnits ir.passthrough "job_load"

/-- `priority_value`. -/
def priorityValue (ir : JobIR) : Option Int := safeUnits ir.passthrough "priority"

/-- The schedule's window, when it has one. -/
def runWindow (ir : JobIR) : Option (Time × Time) := ir.schedule.bind (·.runWindow)

end JobIR

/-- A machine; `pool` says that it lists members. -/
structure MachineIR where
  pool : Bool := false
  attrs : Dict String String := ∅

/-- `max_load_units`: a pool has none. -/
def MachineIR.maxLoadUnits (m : MachineIR) : Option Int :=
  if m.pool then none else safeUnits m.attrs "max_load"

structure ResourceIR where
  resType : Option String := none
  attrs : Dict String String := ∅

/-- `capacity_units`. -/
def ResourceIR.capacityUnits (r : ResourceIR) : Option Int := safeUnits r.attrs "amount"

/-! ## The catalog -/

/-- `_BOX_DEPTH_SANITY`. -/
def boxDepthSanity : Nat := 64

/-- The walk up the boxes from one job meets no box twice and no more than the depth allows. A
box that is not defined ends it. -/
def chainSound (jobs : Dict String JobIR) : Nat → List String → JobIR → Bool
  | depth, chain, job =>
    match job.box.boxName with
    | none => true
    | some up =>
      match jobs.get? up with
      | none => true
      | some next =>
        if up ∈ chain then false
        else
          match depth with
          | 0 => false
          | depth + 1 => chainSound jobs depth (chain ++ [up]) next

/-- `_box_tree_problems` finds nothing: each member's box is a box of the catalog, and no walk up
closes a cycle or passes the depth. -/
def boxTreeSound (jobs : Dict String JobIR) : Bool :=
  jobs.entries.all fun (name, job) =>
    (match job.box.boxName with
      | none => true
      | some up => (jobs.get? up).any JobIR.isBox) &&
    chainSound jobs boxDepthSanity [name] job

structure CatalogIR where
  jobs : Dict String JobIR := ∅
  globalsDeclared : Dict String String := ∅
  machines : Dict String MachineIR := ∅
  resources : Dict String ResourceIR := ∅
  sound : boxTreeSound jobs = true := by decide

/-! ## The switches -/

inductive IceLookback where
  | true_ | ordinary
deriving DecidableEq, Repr

inductive RenewableFree where
  | y | a
deriving DecidableEq, Repr

/-- `queued-recheck`: what the scan re-checks, from nothing to the day. -/
inductive QueuedRecheck where
  | nothing | conditions | day
deriving DecidableEq, Repr

inductive OffIceInRunningBox where
  | nextRun | sameRun
deriving DecidableEq, Repr

inductive BoxStartAllMembersOut where
  | complete | wait
deriving DecidableEq, Repr

inductive IdleBoxIcedMember where
  | ignore | vote
deriving DecidableEq, Repr

/-- `SemanticSwitches`, with the registry's defaults. -/
structure SemanticSwitches where
  iceLookback : IceLookback := .true_
  renewableFree : RenewableFree := .y
  queuedRecheck : QueuedRecheck := .nothing
  offIceInRunningBox : OffIceInRunningBox := .nextRun
  boxTerminatorOnTerminated : Bool := true
  boxStartAllMembersOut : BoxStartAllMembersOut := .complete
  idleBoxIcedMember : IdleBoxIcedMember := .ignore
deriving DecidableEq, Repr

/-- `iced_atom_truth`: what an atom on a job reads while that job is on ice. -/
def icedStatusTruth (a : StatusAtom) (iceLookback : IceLookback) : Bool :=
  if a.lookback ≠ none ∧ iceLookback = .true_ then true
  else a.status = .success ∨ a.status = .done ∨ a.status = .notRunning

def icedExitCodeTruth (a : ExitCodeAtom) (iceLookback : IceLookback) : Bool :=
  a.lookback ≠ none ∧ iceLookback = .true_

end Dsl41.Oracle
