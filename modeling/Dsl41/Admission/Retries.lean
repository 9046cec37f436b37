import Dsl41.Admission.Maps
import Dsl41.Infra.Table

/-!
# Retries over runs and restarts

The index beside the store it is rebuilt from. In every state a run reaches, the maps describe the
attempts in flight and retained decisions, and a lookup answers what the store's rows say.
-/

namespace Dsl41.Admission

open Infra Infra.Effect

/-! ## The store -/

/-- A journal row, as far as the index and its fallback read it. -/
inductive Row
  | input (a : Attempt)
  | decision (fingerprint : String) (result : ApplyResult)
  /-- The intent of an update, under the update's request id. -/
  | intent (request_id fingerprint : String)
  | other
deriving DecidableEq

/-- The row's entry in the store's unique column. -/
def Row.request_id : Row → Option String
  | .decision _ result => some result.request_id
  | .intent request_id _ => some request_id
  | .input _ | .other => none

def Row.decision? : Row → Option (String × ApplyResult)
  | .decision fingerprint result => some (fingerprint, result)
  | _ => none

/-- The decisions among some rows, in order. -/
def decisionsOf (rows : List Row) : List (String × ApplyResult) := rows.filterMap Row.decision?

/-- The request ids some rows take. -/
def idsOf (rows : List Row) : List String := rows.filterMap Row.request_id

def find_request (rows : List Row) (request_id : String) : Option Row :=
  rows.find? fun row => decide (row.request_id = some request_id)

/-- The index's fallback over the store. An input under an update's id reuses it. -/
def decisionLookup (rows : List Row) : Fallback := fun request_id =>
  match find_request rows request_id with
  | none => .ok none
  | some (.decision admitted_under result) => .ok (some (result, admitted_under))
  | some _ => .error (.collision request_id none)

/-- The durable decisions, indexed in store order. -/
def read_decisions : List Row → IndexM Unit
  | [] => pure ()
  | .input a :: rows => do
    note a
    read_decisions rows
  | .decision _ result :: rows => do
    record result
    read_decisions rows
  | _ :: rows => read_decisions rows

/-- The index of the oldest decision the store retains. -/
def firstDecisionIndex (rows : List Row) (otherwise : Nat) : Nat :=
  match decisionsOf rows with
  | [] => otherwise
  | d :: _ => d.2.index

/-! ## The engine -/

/-- The name of an input the engine makes. -/
def engineId (index : Nat) : String := "engine:" ++ toString index

/-- An id in the engine's name space, which a client's request may not take. -/
def reserved (request_id : String) : Bool := "engine:".toList.isPrefixOf request_id.toList

/-- The index and its store. `settled` is the last index decided durably, `inFlight` the attempts
noted since the last restart and not decided. -/
structure Engine where
  decisions : DecisionIndex := {}
  journal : List (Int × Row) := []
  last_seq : Int := 0
  snapshot : Int := 0
  committed_index : Nat := 0
  settled : Nat := 0
  inFlight : List Attempt := []

namespace Engine

variable (e : Engine)

def rows : List Row := e.journal.map Prod.snd

/-- The rows after the latest snapshot. -/
def tail : List Row := (rowsAfter e.snapshot e.journal).map Prod.snd

def lookup (request_id fingerprint : String) : IndexM (Option ApplyResult) :=
  Admission.lookup (some (decisionLookup e.rows)) request_id fingerprint

/-- One row is appended; the store keeps each request id once. -/
def push (row : Row) : Except Fault Engine :=
  match row.request_id with
  | some request_id =>
    if request_id ∈ idsOf e.rows then .error (.requestTaken request_id)
    else .ok { e with journal := e.journal ++ [(e.last_seq + 1, row)], last_seq := e.last_seq + 1 }
  | none => .ok { e with journal := e.journal ++ [(e.last_seq + 1, row)], last_seq := e.last_seq + 1 }

/-- A step of the index. -/
def onIndex {α : Type} (m : IndexM α) : Except Fault Engine :=
  match m.result e.decisions with
  | .ok _ => .ok { e with decisions := m.after e.decisions }
  | .error fault => .error fault

/-- What happens to an engine. -/
inductive Op
  /-- An attempt is admitted and noted. -/
  | note (a : Attempt)
  /-- Its decision is recorded, and both are appended in one transaction. -/
  | record (a : Attempt) (result : ApplyResult)
  | evict_below (below : Nat)
  /-- An update is admitted. -/
  | intent (request_id fingerprint : String)
  | other
  | snapshot
  /-- Retention deletes the rows below a seq. -/
  | prune (bound : Int)
  /-- A crash, and an index rebuilt from the rows after the latest snapshot. -/
  | restart

def step : Op → Except Fault Engine
  | .note a => do
    let e ← e.onIndex (Admission.note a)
    return { e with committed_index := a.index, inFlight := a :: e.inFlight }
  | .record a result => do
    let e ← e.onIndex (Admission.record result)
    let e ← e.push (.input a)
    let e ← e.push (.decision a.fingerprint result)
    return { e with settled := a.index, inFlight := withoutId a.request_id e.inFlight }
  | .evict_below below => e.onIndex (Admission.evict_below below)
  | .intent request_id fingerprint => e.push (.intent request_id fingerprint)
  | .other => e.push .other
  | .snapshot => .ok { e with snapshot := e.last_seq }
  | .prune bound =>
    let kept := e.journal.filter fun r => decide (bound ≤ r.1)
    let e' := { e with journal := kept }
    if kept.length < e.journal.length then
      e'.onIndex (Admission.evict_below (firstDecisionIndex e'.rows (e.committed_index + 1)))
    else .ok e'
  | .restart => do
    let e' ← { e with decisions := {} }.onIndex (read_decisions e.tail)
    return { e' with committed_index := e.settled, inFlight := [] }

def run : Engine → List Op → Except Fault Engine
  | e, [] => .ok e
  | e, op :: ops => do (← e.step op).run ops

/-- What the callers see to: an attempt takes the next index, under a client's id whose lookup found
nothing or under the engine's own name for the index; a decision is its attempt's and follows the
earlier ones; an update's id is no client's or engine's; retention keeps what follows the latest
snapshot. -/
def Allowed : Op → Prop
  | .note a => e.committed_index < a.index ∧
      (reserved a.request_id = false ∧
          (e.lookup a.request_id a.fingerprint).result e.decisions = .ok none ∨
        a.request_id = engineId a.index)
  | .record a result => a ∈ e.inFlight ∧ result.request_id = a.request_id ∧ result.index = a.index ∧
      e.settled < a.index
  | .intent request_id _ => reserved request_id = false ∧ e.decisions.state request_id = .ok none ∧
      find_request e.rows request_id = none
  | .prune bound => bound ≤ e.snapshot
  | .evict_below _ | .other | .snapshot | .restart => True

/-- Every operation of a run is allowed where it happens. -/
def AllAllowed : Engine → List Op → Prop
  | _, [] => True
  | e, op :: ops => e.Allowed op ∧ ∀ e', e.step op = .ok e' → AllAllowed e' ops

/-! ## What a lookup should answer -/

/-- What is known of a request id. -/
inductive Status
  | unseen
  | inFlight (a : Attempt)
  | decided (fingerprint : String) (result : ApplyResult)
  | update

/-- An id's status, by the rows the store retains and the attempts in flight. -/
def status (request_id : String) : Status :=
  match find_request e.rows request_id with
  | some (.decision fingerprint result) => .decided fingerprint result
  | some _ => .update
  | none =>
    match e.inFlight.find? fun a => decide (a.request_id = request_id) with
    | some a => .inFlight a
    | none => .unseen

/-- The answer to a request under an id and a fingerprint. -/
def answer (request_id fingerprint : String) : Except Fault (Option ApplyResult) :=
  match e.status request_id with
  | .unseen => .ok none
  | .inFlight a =>
    if fingerprint = a.fingerprint then .error (.undecided request_id) else .error (.collision request_id none)
  | .decided under result =>
    if fingerprint = under then .ok (some result) else .error (.collision request_id (some result))
  | .update => .error (.collision request_id none)

end Engine

/-! ## Rows -/

section Rows

variable {rows rows' : List Row} {row : Row} {id : String} {d : String × ApplyResult}

/-- Rows that take one id are the same row. -/
theorem row_unique (hids : (idsOf rows).Nodup) {row row' : Row} (hrow : row ∈ rows) (hrow' : row' ∈ rows)
    (hid : row.request_id = some id) (hid' : row'.request_id = some id) : row = row' := by
  induction rows with
  | nil => cases hrow
  | cons first rows ih =>
    cases hfirst : first.request_id with
    | none =>
      rw [idsOf, List.filterMap_cons_none hfirst] at hids
      have hne : ∀ row : Row, row.request_id = some id → row ≠ first := by
        rintro _ hsome rfl
        rw [hfirst] at hsome
        cases hsome
      exact ih hids ((List.mem_cons.mp hrow).resolve_left (hne row hid))
        ((List.mem_cons.mp hrow').resolve_left (hne row' hid'))
    | some taken =>
      rw [idsOf, List.filterMap_cons_some hfirst] at hids
      obtain ⟨hnew, hids⟩ := List.nodup_cons.mp hids
      have htaken : ∀ row ∈ rows, row.request_id = some id → first.request_id ≠ some id := by
        intro row hrow hid hsame
        obtain rfl : taken = id := Option.some.inj (hfirst.symm.trans hsame)
        exact hnew (List.mem_filterMap.mpr ⟨row, hrow, hid⟩)
      rcases List.mem_cons.mp hrow with heq | hmem
      · rcases List.mem_cons.mp hrow' with heq' | hmem'
        · exact heq.trans heq'.symm
        · exact absurd (heq ▸ hid) (htaken row' hmem' hid')
      · rcases List.mem_cons.mp hrow' with heq' | hmem'
        · exact absurd (heq' ▸ hid') (htaken row hmem hid)
        · exact ih hids hmem hmem'

theorem mem_decisionsOf : d ∈ decisionsOf rows ↔ .decision d.1 d.2 ∈ rows := by
  rw [decisionsOf, List.mem_filterMap]
  constructor
  · rintro ⟨row, hrow, hd⟩
    cases row with
    | decision fingerprint result =>
      cases hd
      exact hrow
    | input a => cases hd
    | intent request_id fingerprint => cases hd
    | other => cases hd
  · exact fun h => ⟨_, h, rfl⟩

theorem mem_idsOf_of_decision (hd : d ∈ decisionsOf rows) : d.2.request_id ∈ idsOf rows :=
  List.mem_filterMap.mpr ⟨_, mem_decisionsOf.mp hd, rfl⟩

/-- A retained decision is what its id finds. -/
theorem find_decision (hids : (idsOf rows).Nodup) (hd : d ∈ decisionsOf rows) :
    find_request rows d.2.request_id = some (.decision d.1 d.2) := by
  have hrow := mem_decisionsOf.mp hd
  cases hfind : find_request rows d.2.request_id with
  | none => exact absurd (decide_eq_true rfl) (List.find?_eq_none.mp hfind _ hrow)
  | some row =>
    have hrow' : row ∈ rows := List.mem_of_find?_eq_some hfind
    have hid : row.request_id = some d.2.request_id := 
      of_decide_eq_true (List.find?_some (p := fun row : Row => decide (row.request_id = _)) hfind)
    rw [row_unique hids hrow' hrow hid rfl]

theorem find_request_none (h : id ∉ idsOf rows) : find_request rows id = none := by
  refine List.find?_eq_none.mpr fun row hrow => ?_
  rw [decide_eq_true_eq]
  exact fun hid => h (List.mem_filterMap.mpr ⟨row, hrow, hid⟩)

theorem not_mem_idsOf (h : find_request rows id = none) : id ∉ idsOf rows := by
  intro hmem
  obtain ⟨row, hrow, hid⟩ := List.mem_filterMap.mp hmem
  exact absurd hid (by simpa using List.find?_eq_none.mp h row hrow)

theorem idsOf_append : idsOf (rows ++ rows') = idsOf rows ++ idsOf rows' := List.filterMap_append

theorem decisionsOf_append : decisionsOf (rows ++ rows') = decisionsOf rows ++ decisionsOf rows' :=
  List.filterMap_append

/-- The ids of the decisions are among those taken, in order. -/
theorem ids_sublist : ((decisionsOf rows).map (·.2.request_id)).Sublist (idsOf rows) := by
  induction rows with
  | nil => exact .slnil
  | cons row rows ih =>
    cases row with
    | decision fingerprint result => exact .cons_cons _ ih
    | input a => exact ih
    | intent request_id fingerprint => exact .cons _ ih
    | other => exact ih

/-- Attempts and decisions come in pairs. -/
inductive Admissions : List Row → Prop
  | nil : Admissions []
  | admission {rows : List Row} (a : Attempt) (result : ApplyResult)
      (hid : result.request_id = a.request_id) (h : Admissions rows) :
      Admissions (.input a :: .decision a.fingerprint result :: rows)
  | intent {rows : List Row} (request_id fingerprint : String) (h : Admissions rows) :
      Admissions (.intent request_id fingerprint :: rows)
  | other {rows : List Row} (h : Admissions rows) : Admissions (.other :: rows)

theorem Admissions.append (h : Admissions rows) (h' : Admissions rows') : Admissions (rows ++ rows') := by
  induction h with
  | nil => exact h'
  | admission a result hid _ ih => exact .admission a result hid ih
  | intent request_id fingerprint _ ih => exact .intent request_id fingerprint ih
  | other _ ih => exact .other ih

/-- Reading pairs of attempts and decisions indexes the decisions. -/
theorem read_decisions_spec {index : DecisionIndex} {decided : List (String × ApplyResult)}
    (h : Admissions rows) (hindex : Describes index [] decided)
    (hdistinct : ((decided ++ decisionsOf rows).map (·.2.request_id)).Nodup)
    (hordered : (decided ++ decisionsOf rows).Pairwise fun d d' => d.2.index < d'.2.index) :
    (read_decisions rows).result index = .ok () ∧
      Describes ((read_decisions rows).after index) [] (decided ++ decisionsOf rows) := by
  induction h generalizing index decided with
  | nil => exact ⟨rfl, by rwa [decisionsOf, List.filterMap_nil, List.append_nil]⟩
  | @admission rows a result hid h ih =>
    have hpush : decided ++ decisionsOf (.input a :: .decision a.fingerprint result :: rows) =
        decided ++ [(a.fingerprint, result)] ++ decisionsOf rows := by
      rw [List.append_assoc]
      rfl
    rw [hpush] at hdistinct hordered ⊢
    have hfresh : Unseen [] decided a.request_id := by
      refine ⟨fun b hb => absurd hb List.not_mem_nil, fun d hd heq => ?_⟩
      rw [List.map_append, List.map_append] at hdistinct
      have hcross := (List.nodup_append.mp (List.nodup_append.mp hdistinct).1).2.2
      exact hcross d.2.request_id (List.mem_map_of_mem (f := fun d : String × ApplyResult => d.2.request_id) hd)
        result.request_id List.mem_cons_self (heq.trans hid.symm)
    obtain ⟨hnote, hnoted⟩ := note_spec hindex hfresh
    have hlater : ∀ d ∈ decided, d.2.index < result.index := fun d hd =>
      (List.pairwise_append.mp (List.pairwise_append.mp hordered).1).2.2 d hd _ List.mem_cons_self
    obtain ⟨hrecord, hrecorded⟩ := record_spec hnoted List.mem_cons_self hid hlater
    have hclosed : withoutId a.request_id [a] = [] := by simp [withoutId]
    rw [hclosed] at hrecorded
    obtain ⟨hrest, hdescribes⟩ := ih hrecorded hdistinct hordered
    unfold read_decisions
    simp only [result_bind, after_bind, hnote]
    unfold read_decisions
    simp only [result_bind, after_bind, hrecord]
    exact ⟨hrest, hdescribes⟩
  | intent request_id fingerprint h ih => exact ih hindex hdistinct hordered
  | other h ih => exact ih hindex hdistinct hordered

end Rows

end Dsl41.Admission
