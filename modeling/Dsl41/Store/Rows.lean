import Dsl41.Infra.Dict
import Mathlib.Data.Finset.Basic
import Mathlib.Data.List.Sort
import Mathlib.Data.Prod.Lex

/-!
# The rows of the store

The vocabulary of the events, the frozen rows of jobs and globals, the reservations that ride on
a job's row, and the armed timers. The instants are an ordered type `τ`; what else a payload may
carry besides text is a type `ω`.
-/

namespace Dsl41.Store

open Dsl41.Infra

inductive JobStatus where
  | inactive | queWait | starting | running | success | failure | terminated
deriving DecidableEq, Repr

/-- `TERMINAL`. -/
def JobStatus.terminal : JobStatus → Bool
  | success | failure | terminated => true
  | _ => false

/-- `LIVE`: a run's reservations are held while the row is here. -/
def JobStatus.live : JobStatus → Bool
  | starting | running => true
  | _ => false

inductive EventKind where
  | status | startJob | forceStartJob | setGlobal | onIce | offIce | onHold | offHold | onNoexec
  | offNoexec | disarm | releaseResource | killJob | timer | mustStartAlarm | mustCompleteAlarm
deriving DecidableEq, Repr

/-- A payload's value: text, or any other object. -/
inductive Value (ω : Type) where
  | text (s : String)
  | other (o : ω)
deriving DecidableEq

structure Event (τ ω : Type) where
  at_ : τ
  kind : EventKind
  payload : Dict String (Value ω) := ∅
  source : Option String := none

/-- `Event.job`: the payload's job, when it is text. -/
def Event.job {τ ω : Type} (ev : Event τ ω) : Option String :=
  match ev.payload.get? "job" with
  | some (.text job) => some job
  | _ => none

/-! ## Capacity -/

inductive ReleasePolicy where
  | completion | success | never
deriving DecidableEq, Repr

/-- One bucket's units, held by one run. -/
structure CapacityReservation where
  bucket : String
  units : Nat
  units_pos : 0 < units
  releasePolicy : ReleasePolicy
deriving DecidableEq

/-- `unreleased`: the units a run's end does not free, as kept and spent. -/
def unreleased (success : Bool) (keepsHeld : Option (String → Bool)) :
    List CapacityReservation → List CapacityReservation × List CapacityReservation
  | [] => ([], [])
  | r :: rest =>
    let (kept, spent) := unreleased success keepsHeld rest
    if r.releasePolicy = .completion ∨ (r.releasePolicy = .success ∧ success) then (kept, spent)
    else if keepsHeld.any (· r.bucket) then (r :: kept, spent)
    else (kept, r :: spent)

/-- `RESOURCE_BUCKET`. -/
def resourceBucket : String := "r:"

/-- `may_outlive_run`: whether a reservation may stay on a row that is not live. -/
def CapacityReservation.mayOutliveRun (r : CapacityReservation) : Bool :=
  resourceBucket.isPrefixOf r.bucket && r.releasePolicy ≠ .completion

/-! ## The rows -/

/-- `_PROJECTED_JOB_FIELDS`: every field of a job's row but its revision. -/
structure JobFields (τ : Type) where
  status : JobStatus := .inactive
  statusAt : Option τ := none
  lastEndAt : Option τ := none
  exitCode : Option Int := none
  runNumber : Int := 0
  onIce : Bool := false
  onHold : Bool := false
  onNoexec : Bool := false
  armed : Bool := false
  startedBy : Option String := none
  startPeriod : Int := 1
  ranMembers : Finset String := ∅
  windowSkippedMembers : Finset String := ∅
  icedOutMembers : Finset String := ∅
  reservations : List CapacityReservation := []
  waiterSeq : Option Nat := none
deriving DecidableEq

structure JobRuntime (τ : Type) extends JobFields τ where
  stateRev : Nat := 0
deriving DecidableEq

structure GlobalRuntime where
  value : String
  stateRev : Nat := 0
deriving DecidableEq

/-- `FlagState`: one flag's value, as the `job` chart names it. -/
inductive FlagState where
  | iceOff | iceOn | holdOff | holdOn | noexecOff | noexecOn | armOff | armOn
deriving DecidableEq, Repr

/-- `FLAG_FIELDS`: what a flag's state writes on a row. -/
def FlagState.write {τ : Type} (row : JobRuntime τ) : FlagState → JobRuntime τ
  | iceOff => { row with onIce := false }
  | iceOn => { row with onIce := true }
  | holdOff => { row with onHold := false }
  | holdOn => { row with onHold := true }
  | noexecOff => { row with onNoexec := false }
  | noexecOn => { row with onNoexec := true }
  | armOff => { row with armed := false }
  | armOn => { row with armed := true }

@[simp] theorem FlagState.write_stateRev {τ : Type} (row : JobRuntime τ) (flag : FlagState) :
    (flag.write row).stateRev = row.stateRev := by
  cases flag with
  | _ => rfl

/-! ## The timers -/

/-- An armed timer: the instant it is due, its token and what it fires. -/
structure Timer (τ ω : Type) where
  due : τ
  token : Nat
  event : Event τ ω

/-- `_timer_order`: `(due, token)` and nothing after it. -/
def Timer.order {τ ω : Type} (t : Timer τ ω) : τ ×ₗ Nat := toLex (t.due, t.token)

/-- The heap of the timers, as the list of its entries in firing order. -/
structure Timers (τ ω : Type) [LinearOrder τ] where
  entries : List (Timer τ ω) := []
  sorted : entries.Pairwise (fun s t => s.order ≤ t.order) := by exact List.Pairwise.nil

namespace Timers

variable {τ ω : Type} [LinearOrder τ]

def insertIn (t : Timer τ ω) (l : List (Timer τ ω)) : List (Timer τ ω) :=
  l.orderedInsert (fun s t => s.order ≤ t.order) t

theorem sorted_insertIn {t : Timer τ ω} {l : List (Timer τ ω)}
    (h : l.Pairwise fun s t => s.order ≤ t.order) :
    (insertIn t l).Pairwise fun s t => s.order ≤ t.order := by
  have : Std.Total (fun s t : Timer τ ω => s.order ≤ t.order) := ⟨fun s t => le_total s.order t.order⟩
  have : IsTrans (Timer τ ω) (fun s t => s.order ≤ t.order) :=
    ⟨fun _ _ _ hst htu => le_trans hst htu⟩
  exact List.Pairwise.orderedInsert t l h

/-- `heappush`. -/
def push (q : Timers τ ω) (t : Timer τ ω) : Timers τ ω := ⟨insertIn t q.entries, sorted_insertIn q.sorted⟩

/-- `sorted(…, key=_timer_order)`, then `heapify`. -/
def ofList (l : List (Timer τ ω)) : Timers τ ω where
  entries := l.foldr insertIn []
  sorted := by
    induction l with
    | nil => exact List.Pairwise.nil
    | cons t l ih => exact sorted_insertIn ih

/-- `heappop`: what is left without the first timer. -/
def pop (q : Timers τ ω) : Timers τ ω := ⟨q.entries.tail, q.sorted.tail⟩

/-- The timers that pass a test. -/
def keep (q : Timers τ ω) (p : Timer τ ω → Bool) : Timers τ ω :=
  ⟨q.entries.filter p, q.sorted.filter p⟩

/-- `timers_for`: one job's timers as `(due, token)`, in firing order. -/
def timersFor (q : Timers τ ω) (job : String) : List (τ × Nat) :=
  (q.entries.filter fun t => t.event.job = some job).map fun t => (t.due, t.token)

/-- A timer of no job, or of another one, is not among a job's timers. -/
theorem timersFor_push {q : Timers τ ω} {t : Timer τ ω} {job : String}
    (h : t.event.job ≠ some job) : (q.push t).timersFor job = q.timersFor job := by
  have hin : ∀ l : List (Timer τ ω), (insertIn t l).filter (fun t => t.event.job = some job) =
      l.filter fun t => t.event.job = some job := by
    intro l
    induction l with
    | nil => simp [insertIn, h]
    | cons s l ih =>
      rw [insertIn, List.orderedInsert_cons]
      split
      · rw [List.filter_cons_of_neg (by simpa using h)]
      · simp only [List.filter_cons]
        rw [show List.orderedInsert _ t l = insertIn t l from rfl, ih]
  rw [timersFor, push, hin]
  rfl

theorem timersFor_pop {q : Timers τ ω} {job : String}
    (h : ∀ t ∈ q.entries.head?, t.event.job ≠ some job) : q.pop.timersFor job = q.timersFor job := by
  obtain ⟨entries, sorted⟩ := q
  cases entries with
  | nil => rfl
  | cons t l =>
    have ht : ¬ t.event.job = some job := h t (by simp)
    simp [timersFor, pop, ht]

end Timers

end Dsl41.Store
