import Dsl41.Oracle.World

/-!
# The states and rows of the job chart

The tree of states, the rows and the choices of the `job` chart, and the configuration a job's row
projects to. Ids carry the chart's name and the hundred names the region: `job.1NN` and `job.4NN`
are status rows, `job.2NN` flag rows, `job.3NN` holding rows.
-/

namespace Dsl41.Oracle

open Dsl41.Store
open Dsl41.StateMachine (Name State Region Row RowKind Branch Choice COMPLETION)

/-! ## Configurations -/

/-- `_STATUS_PATH`: a status's ancestors inside the `status` region, outermost first. -/
def statusPath : JobStatus → List Name
  | .inactive => ["lifecycle", "IDLE"]
  | .success => ["lifecycle", "IDLE", "TERMINAL"]
  | .failure | .terminated => ["lifecycle", "IDLE", "TERMINAL", "FAILED"]
  | .queWait => ["lifecycle"]
  | .starting | .running => ["lifecycle", "LIVE"]

/-- `_STATUS_REST`: the states a status holds between items. -/
def statusRest : JobStatus → List Name
  | .running => ["settled"]
  | _ => []

inductive Holding where
  | none | reserved | held
deriving DecidableEq, Repr

def Holding.state : Holding → Name
  | none => "none"
  | reserved => "reserved"
  | held => "held"

/-- `configuration`. -/
def configuration (status : JobStatus) (ice hold noexec : Bool) (holding : Holding) : Finset Name :=
  (["job"] ++ statusPath status ++ [statusName status] ++ statusRest status ++
    ["flags", if ice then "ice_on" else "ice_off", if hold then "hold_on" else "hold_off",
      if noexec then "noexec_on" else "noexec_off", holding.state]).toFinset

/-- `row_holding`. -/
def rowHolding {τ : Type} (row : JobFields τ) : Holding :=
  if row.reservations = [] then .none else if row.status.live then .reserved else .held

/-- `row_configuration`. -/
def rowConfiguration {τ : Type} (row : JobFields τ) : Finset Name :=
  configuration row.status row.onIce row.onHold row.onNoexec (rowHolding row)

/-- The statuses, in the order `status_of` tries them. -/
def statuses : List JobStatus :=
  [.inactive, .success, .failure, .terminated, .queWait, .starting, .running]

/-- `status_of`: none for a set that holds no status. -/
def statusOf (active : Finset Name) : Option JobStatus :=
  statuses.find? fun s => statusName s ∈ active

/-! ## States -/

def leaf (name : Name) : State := .mk name [] "" "" [] false [] ""

def enters (name entry : Name) : State := .mk name [] entry "" [] false [] ""

def composite (name : Name) (regions : List Region) : State := .mk name regions "" "" [] false [] ""

/-- `_status`: a status leaf. -/
def statusLeaf (status : JobStatus) : State := enters (statusName status) "writes_status"

/-- `_flag`. -/
def flagRegion (name : Name) : Region :=
  .mk name (name ++ "_off") [leaf (name ++ "_off"), leaf (name ++ "_on")]

def FAILED_STATE : State :=
  composite "FAILED" [.mk "failed" "FAILURE" [statusLeaf .failure, statusLeaf .terminated]]

def TERMINAL_STATE : State :=
  composite "TERMINAL" [.mk "terminal" "SUCCESS" [statusLeaf .success, FAILED_STATE]]

def IDLE_STATE : State :=
  composite "IDLE" [.mk "idle" "INACTIVE" [statusLeaf .inactive, TERMINAL_STATE]]

/-- A running box's completion door. -/
def DOOR : Region :=
  .mk "door" "settled"
    [leaf "settled", enters "overriding" "reads_overrides", enters "folding" "reads_fold"]

def RUNNING_STATE : State := .mk "RUNNING" [DOOR] "writes_status" "" [] false [] ""

def LIVE_STATE : State :=
  composite "LIVE" [.mk "live" "STARTING" [statusLeaf .starting, RUNNING_STATE]]

/-- An admitted start between its admission and its STARTING. -/
def ADMITTED_STATE : State := enters "ADMITTED" "starts_run"

def LIFECYCLE_STATE : State :=
  composite "lifecycle"
    [.mk "status" "IDLE" [IDLE_STATE, statusLeaf .queWait, LIVE_STATE, ADMITTED_STATE]]

/-- `ROOT`. -/
def JOB_ROOT : State :=
  composite "job"
    [.mk "status" "lifecycle" [LIFECYCLE_STATE],
      .mk "flags" "flags"
        [composite "flags" [flagRegion "ice", flagRegion "hold", flagRegion "noexec"]],
      .mk "holding" "none" [leaf "none", leaf "reserved", leaf "held"]]

/-! ## Rows -/

/-- A row that moves the configuration. -/
def moves (id source event target : Name) (guard : Name := "") (action : Name := "") : Row :=
  { id, source, event, target, guard, action }

/-- A row that moves nothing and may send. -/
def keeps (id source event : Name) (guard : Name := "") (action : Name := "") : Row :=
  { id, source, event, guard, action, kind := .internal }

/-- A cell the rules move nothing in. -/
def ignores (id source event : Name) (guard : Name := "") : Row :=
  { id, source, event, guard, kind := .ignored }

/-- `_never`: a cell the rules never post. -/
def never (id source event : Name) (guard : Name := "") : Row := ignores id source event guard

/-- `_STATUS_ROWS`. -/
def STATUS_ROWS : List Row := [
  keeps "job.100" "IDLE" START "start_bounded",
  moves "job.101" "IDLE" START "SUCCESS" "start_bypasses" "extent_bypass",
  keeps "job.102" "IDLE" START "start_admits_job" "extent_admit",
  moves "job.103" "IDLE" START "QUE_WAIT" "start_queues" "extent_queue",
  keeps "job.104" "FAILED" START "start_on_held" "extent_on_held",
  moves "job.105" "STARTING" STARTED "RUNNING" "started_job" "moved",
  moves "job.106" "TERMINAL" START "INACTIVE" "start_skips" "moved",
  moves "job.107" "TERMINAL" START "INACTIVE" "start_skips_member" "moved",
  moves "job.108" "QUE_WAIT" READMIT "ADMITTED" "readmit_admits" "admit",
  moves "job.109" "QUE_WAIT" READMIT "INACTIVE" "readmit_cancels" "cancelled",
  moves "job.112" "QUE_WAIT" ICE_MOVED "INACTIVE" "" "moved",
  moves "job.113" "QUE_WAIT" NOEXEC_MOVED "INACTIVE" "noexec_settles_job" "injected",
  moves "job.114" "LIVE" KILLJOB "TERMINATED" "" "terminated",
  moves "job.115" "RUNNING" TERM_RUN_TIME "TERMINATED" "current_run" "terminated",
  moves "job.116" "LIVE" BOX_ENDS "TERMINATED" "is_terminator" "terminated",
  moves "job.117" "lifecycle" STATUS "SUCCESS" "exit_success" "moved",
  moves "job.118" "lifecycle" STATUS "FAILURE" "exit_failure" "moved",
  moves "job.119" "lifecycle" STATUS "injected status" "injects",
  moves "job.120" "lifecycle" STATUS "INACTIVE" "injects_inactive_job" "injected",
  moves "job.121" "FAILED" NOEXEC_MOVED "INACTIVE" "noexec_settles_job" "injected",
  moves "job.122" "TERMINAL" BOX_START "INACTIVE" "" "batched",
  moves "job.445" "lifecycle" BOX_SET_INACTIVE "INACTIVE" "" "batched",
  keeps "job.124" "IDLE" START "start_admits_box" "extent_admit",
  moves "job.125" "STARTING" STARTED "RUNNING" "started_box" "runs_box",
  moves "job.130" "RUNNING" MEMBER_ENDS "TERMINATED" "terminator_fires" "terminated",
  moves "job.446" "lifecycle" BOX_RECOMPUTE "SUCCESS" "overrides_success" "moved",
  moves "job.447" "lifecycle" BOX_RECOMPUTE "FAILURE" "overrides_failure" "moved",
  moves "job.448" "lifecycle" BOX_RECOMPUTE "SUCCESS" "derives_success" "moved",
  moves "job.449" "lifecycle" BOX_RECOMPUTE "FAILURE" "derives_failure" "moved",
  moves "job.135" "lifecycle" STATUS "INACTIVE" "injects_inactive_box" "cascades",
  keeps "job.440" "IDLE" KILLJOB,
  keeps "job.441" "lifecycle" START "start_refused",
  keeps "job.442" "LIVE" ON_ICE,
  keeps "job.443" "LIVE" ON_HOLD,
  keeps "job.444" "lifecycle" ON_NOEXEC "noexec_ignored",
  moves "job.452" "lifecycle" NOEXEC_MOVED "INACTIVE" "noexec_settles_box" "cascades",
  keeps "job.177" "lifecycle" STARTJOB "" "relay_start",
  keeps "job.178" "lifecycle" FORCE_STARTJOB "" "relay_start",
  keeps "job.179" "lifecycle" RUN_WINDOW "" "relay_start",
  ignores "job.180" "lifecycle" START "start_moves_nothing",
  ignores "job.181" "QUE_WAIT" READMIT "readmit_keeps",
  never "job.182" "lifecycle" READMIT "not_queued",
  ignores "job.183" "lifecycle" STARTED,
  ignores "job.184" "lifecycle" TERM_RUN_TIME,
  never "job.186" "lifecycle" MEMBER_MOVES,
  { ignores "job.189" "lifecycle" MEMBER_ENDS "is_box" with
    falseUnreachable := "its complement is job.190's, a marked row: only a box has members" },
  never "job.190" "lifecycle" MEMBER_ENDS "is_job",
  ignores "job.191" "lifecycle" BOX_RECOMPUTE "recomputes_nothing",
  never "job.192" "lifecycle" BOX_RECOMPUTE "is_job",
  never "job.450" "lifecycle" BOX_RECOMPUTE "live_or_terminated_box",
  ignores "job.195" "lifecycle" BOX_START,
  ignores "job.196" "INACTIVE" BOX_SET_INACTIVE,
  ignores "job.197" "lifecycle" BOX_ENDS,
  ignores "job.451" "lifecycle" ICE_MOVED,
  ignores "job.198" "lifecycle" NOEXEC_MOVED "noexec_moves_nothing",
  never "job.199" "lifecycle" NOEXEC_MOVED "noexec_ignored",
  never "job.453" "ADMITTED" NOEXEC_MOVED,
  moves "job.454" "settled" MEMBER_MOVES "overriding" "door_reads_overrides",
  moves "job.455" "settled" MEMBER_MOVES "folding" "door_folds_only",
  moves "job.126" "overriding" COMPLETION "SUCCESS" "override_success" "completed",
  moves "job.127" "overriding" COMPLETION "FAILURE" "override_failure" "completed",
  moves "job.456" "overriding" COMPLETION "folding" "override_unmet_folds",
  moves "job.457" "overriding" COMPLETION "settled" "override_unmet_settles",
  moves "job.128" "folding" COMPLETION "SUCCESS" "fold_success" "completed",
  moves "job.129" "folding" COMPLETION "FAILURE" "fold_failure" "completed",
  moves "job.458" "folding" COMPLETION "settled" "fold_decides_nothing",
  never "job.459" "overriding" MEMBER_MOVES,
  never "job.460" "folding" MEMBER_MOVES]

/-- `_FLAG_ROWS`. -/
def FLAG_ROWS : List Row := [
  moves "job.201" "ice_off" ON_ICE "ice_on" "not_live_or_queued" "iced",
  moves "job.202" "ice_on" OFF_ICE "ice_off",
  moves "job.203" "ice_on" FORCE_STARTJOB "ice_off" "force_clears",
  moves "job.204" "hold_off" ON_HOLD "hold_on" "not_live_or_queued",
  moves "job.205" "hold_on" OFF_HOLD "hold_off" "not_queued" "released_hold",
  moves "job.206" "hold_on" FORCE_STARTJOB "hold_off" "force_clears",
  moves "job.207" "hold_on" ON_NOEXEC "hold_off" "noexec_applies",
  moves "job.208" "hold_off" BOX_RUNNING "hold_on" "has_auto_hold",
  moves "job.209" "noexec_off" ON_NOEXEC "noexec_on" "noexec_applies" "noexec",
  moves "job.210" "noexec_on" OFF_NOEXEC "noexec_off" "" "cleared_noexec",
  moves "job.211" "noexec_on" BOX_OFF_NOEXEC "noexec_off",
  moves "job.218" "ice_on" ON_ICE "ice_on" "not_live" "iced_again",
  moves "job.219" "ice_off" OFF_ICE "ice_off",
  moves "job.220" "hold_on" ON_HOLD "hold_on" "not_live_or_queued",
  moves "job.221" "hold_off" OFF_HOLD "hold_off" "not_queued" "released_hold",
  moves "job.222" "noexec_on" ON_NOEXEC "noexec_on" "noexec_applies" "noexec",
  moves "job.223" "noexec_off" OFF_NOEXEC "noexec_off" "" "cleared_noexec",
  ignores "job.227" "flags" BOX_RUNNING,
  ignores "job.229" "noexec_off" BOX_OFF_NOEXEC,
  moves "job.231" "noexec_off" BOX_ON_NOEXEC "noexec_on",
  moves "job.232" "hold_on" BOX_ON_NOEXEC "hold_off",
  moves "job.233" "noexec_on" BOX_ON_NOEXEC "noexec_on",
  moves "job.234" "ice_off" ON_ICE "ice_on" "queued" "report_ice",
  moves "job.235" "hold_off" ON_HOLD "hold_on" "queued" "held",
  moves "job.236" "hold_on" ON_HOLD "hold_on" "queued" "held",
  moves "job.237" "hold_on" OFF_HOLD "hold_off" "queued" "released_waiter",
  moves "job.238" "hold_off" OFF_HOLD "hold_off" "queued" "released_waiter",
  moves "job.239" "hold_off" STATUS "hold_on" "injects_hold"]

/-- `_HOLDING_ROWS`. -/
def HOLDING_ROWS : List Row := [
  moves "job.301" "none" ADMITTED_START "reserved" "has_demand",
  moves "job.302" "held" ADMITTED_START "taken over" "takes_over",
  moves "job.303" "held" ADMITTED_START "reserved" "on_held_units",
  moves "job.304" "reserved" LEAVE_LIVE "none" "frees_all",
  moves "job.305" "reserved" LEAVE_LIVE "held" "keeps_held",
  moves "job.306" "reserved" LEAVE_LIVE "none" "spends",
  moves "job.307" "held" RELEASE_RESOURCE "none" "" "released_held",
  { moves "job.308" "held" PERIOD_OPENING "none" "left_catalog" with
    falseUnreachable := "its complement is job.321's, a marked row: the opening addresses only" ++
      " a removed job" },
  ignores "job.311" "none" ADMITTED_START "no_demand",
  keeps "job.312" "reserved" ADMITTED_START "takes_over" "settle_ended_run",
  ignores "job.313" "none" LEAVE_LIVE,
  ignores "job.314" "held" LEAVE_LIVE,
  ignores "job.315" "none" RELEASE_RESOURCE,
  ignores "job.316" "reserved" RELEASE_RESOURCE,
  never "job.317" "none" PERIOD_OPENING,
  never "job.318" "reserved" PERIOD_OPENING,
  moves "job.319" "held" STATUS "reserved" "injects_live",
  never "job.320" "reserved" ADMITTED_START "on_held_units",
  never "job.321" "held" PERIOD_OPENING "in_catalog"]

/-- `_MOMENT_ROWS`. -/
def MOMENT_ROWS : List Row := [
  keeps "job.401" "IDLE" START "start_settles_first" "settles_first",
  moves "job.402" "lifecycle" START_ADMITTED "ADMITTED" "admitted_admit",
  keeps "job.404" "INACTIVE" START "start_skips_inactive_member" "skips_in_box",
  keeps "job.405" "lifecycle" BOX_RULES "" "moment",
  keeps "job.406" "lifecycle" SETTLE "" "moment",
  keeps "job.407" "lifecycle" WAKE "" "moment",
  keeps "job.408" "lifecycle" WALK_UP "" "moment",
  keeps "job.409" "lifecycle" HOLDERS "" "moment",
  keeps "job.411" "lifecycle" LOAD_TAKEN "" "moment",
  keeps "job.412" "lifecycle" BOX_ENDS_STEP "" "moment",
  keeps "job.413" "lifecycle" NOTIFY_STEP "" "moment",
  keeps "job.414" "lifecycle" WINDOW_PASS "" "moment",
  keeps "job.415" "lifecycle" AFTER_INJECT "" "moment",
  keeps "job.416" "lifecycle" AFTER_LEAVE "" "moment",
  keeps "job.417" "lifecycle" RETRY_STEP "" "moment",
  keeps "job.418" "LIVE" SETTLE,
  never "job.420" "ADMITTED" BOX_SET_INACTIVE,
  never "job.421" "ADMITTED" START,
  never "job.422" "ADMITTED" KILLJOB,
  never "job.423" "ADMITTED" ON_NOEXEC,
  keeps "job.424" "lifecycle" START_ADMITTED "admitted_bypass" "bypass_extent",
  keeps "job.425" "lifecycle" START_ADMITTED "admitted_queue" "queue_extent",
  moves "job.426" "lifecycle" START_ADMITTED "ADMITTED" "admitted_on_held",
  moves "job.427" "ADMITTED" COMPLETION "STARTING" "admitted_by_start" "starting_admitted",
  moves "job.428" "ADMITTED" COMPLETION "STARTING" "admitted_by_readmit" "starting_readmitted"]

/-- `_ARM_ROWS`. -/
def ARM_ROWS : List Row := [
  keeps "job.429" "IDLE" START "start_arms",
  keeps "job.430" "lifecycle" ACTUAL_START "armed",
  keeps "job.431" "lifecycle" ACTUAL_START "unarmed",
  keeps "job.432" "lifecycle" DISARM "armed",
  keeps "job.433" "lifecycle" DISARM "unarmed",
  keeps "job.434" "lifecycle" BOX_RUN_ENDS "armed",
  ignores "job.435" "lifecycle" BOX_RUN_ENDS "unarmed",
  moves "job.436" "QUE_WAIT" KILLJOB "TERMINATED" "armed" "moved",
  moves "job.437" "QUE_WAIT" KILLJOB "TERMINATED" "unarmed" "moved",
  moves "job.438" "QUE_WAIT" READMIT "INACTIVE" "readmit_leaves_armed" "left_queue",
  moves "job.439" "QUE_WAIT" READMIT "INACTIVE" "readmit_leaves_unarmed" "left_queue"]

/-- `ROWS`. -/
def JOB_ROWS : List Row := STATUS_ROWS ++ FLAG_ROWS ++ HOLDING_ROWS ++ MOMENT_ROWS ++ ARM_ROWS

/-- `ARM_LATCHES`. -/
def ARM_LATCHES : List Name := ["job.429"]

/-- `ARM_CLEARS`. -/
def ARM_CLEARS : List Name :=
  ["job.430", "job.431", "job.432", "job.433", "job.434", "job.435", "job.436", "job.437",
    "job.438", "job.439"]

/-- `CHOICES`. -/
def JOB_CHOICES : List Choice := [
  { name := "injected status"
    branches := [
      ⟨"job.171", "INACTIVE", "injected_inactive", "moved", ""⟩,
      ⟨"job.172", "STARTING", "injected_starting", "moved", ""⟩,
      ⟨"job.173", "RUNNING", "injected_running", "moved", ""⟩,
      ⟨"job.174", "SUCCESS", "injected_success", "moved", ""⟩,
      ⟨"job.175", "FAILURE", "injected_failure", "moved", ""⟩,
      ⟨"job.176", "TERMINATED", "", "moved", ""⟩] },
  { name := "taken over"
    branches := [⟨"job.309", "reserved", "has_demand", "", ""⟩, ⟨"job.310", "none", "", "", ""⟩] }]

end Dsl41.Oracle
