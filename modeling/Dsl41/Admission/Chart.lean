import Dsl41.Infra.Result
import Dsl41.StateMachine.Executor

/-!
# The window of one request id

`ADMISSION` is one request id from its durable attempt to its durable decision. An instance starts
in `admitted` with the attempt as its data; the decision takes it to a final state, and an input
that names the open id is refused or stops the engine.
-/

namespace Dsl41.Admission

open StateMachine

/-- One admitted input; the fields that only the oracle reads are left out. -/
structure Attempt where
  index : Nat
  request_id : String
  fingerprint : String
deriving DecidableEq

inductive Verdict
  | applied | rejected
deriving DecidableEq

/-- What one admitted input decided. -/
structure ApplyResult where
  index : Nat
  request_id : String
  decision : Verdict
  reason : Option String := none
  code : Option String := none
  revisions : List (String × Int) := []
deriving DecidableEq

/-- An instance's data and its events' payloads. -/
inductive Payload
  | empty
  | attempt (a : Attempt)
  | result (r : ApplyResult)
  | fingerprint (text : String)

instance : Inhabited Payload := ⟨.empty⟩

def DECIDE : Name := "decide"

def INPUT : Name := "input"

/-- The executor of the index, its instances by request id. -/
abbrev Machines := Executor String Payload Unit

/-! ## The chart -/

def applied : Guard String Payload Unit := fun ctx _ =>
  match ctx.event.payload with
  | .result r => r.decision = .applied
  | _ => false

def rejected : Guard String Payload Unit := fun ctx _ =>
  match ctx.event.payload with
  | .result r => r.decision = .rejected
  | _ => false

/-- The input carries the fingerprint the attempt was admitted under. -/
def same : Guard String Payload Unit := fun ctx _ =>
  match ctx.event.payload, ctx.data with
  | .fingerprint text, .attempt a => text = a.fingerprint
  | _, _ => false

def other : Guard String Payload Unit := fun ctx world => !same ctx world

def ADMISSION_GUARDS : List (Name × Guard String Payload Unit) :=
  [("applied", applied), ("rejected", rejected), ("same", same), ("other", other)]

def leaf (name : Name) (final : Bool) : State := .mk name [] "" "" [] final [] ""

/-- The decision line. -/
def APPLIED : Row where
  id := "admission.02"
  source := "admitted"
  event := DECIDE
  target := "applied"
  guard := "applied"

/-- The decision line, with its stored code. -/
def REJECTED : Row where
  id := "admission.03"
  source := "admitted"
  event := DECIDE
  target := "rejected"
  guard := "rejected"

/-- Refuse with no decision to carry. -/
def REUSED : Row where
  id := "admission.09"
  source := "admitted"
  event := INPUT
  guard := "other"
  kind := .refusal
  code := "request_id_reused"

/-- The index raises: a second writer is applying inputs. -/
def SECOND_WRITER : Row where
  id := "admission.10"
  source := "admitted"
  event := INPUT
  guard := "same"
  kind := .internal

def ADMISSION_ROWS : List Row := [APPLIED, REJECTED, REUSED, SECOND_WRITER]

def ADMISSION : Statechart String Payload Unit where
  name := "admission"
  root := .mk "admission" [.mk "window" "admitted"
    [leaf "admitted" false, leaf "applied" true, leaf "rejected" true]] "" "" [] false [] ""
  rows := ADMISSION_ROWS
  guards := fun name => List.lookup name ADMISSION_GUARDS
  clock := .logical

/-! ## One microstep -/

section Microstep

variable {w : Unit} {id : String} {a : Attempt} {inst : Instance String Payload Unit}
  {r : Records String Payload Unit}

/-- An instance that waits for its decision. -/
structure Waiting (inst : Instance String Payload Unit) (a : Attempt) : Prop where
  chart : inst.chart = ADMISSION
  data : inst.data = .attempt a
  active : inst.active = {"admission", "admitted"}
  deferred : inst.deferred = []

theorem initialEntry_admission : (index ADMISSION).initialEntry = ["admission", "admitted"] := by decide

theorem state?_admission : ((index ADMISSION).state? "admission").map (·.entry) = some "" := by decide

theorem state?_admitted : ((index ADMISSION).state? "admitted").map (·.entry) = some "" := by decide

theorem call_empty {step : Microstep String Payload} : call r step "" = .ok (r, step) := if_pos rfl

variable (r id a) in
/-- The initial entry of an instance leaves it waiting. -/
theorem start_step (hinst : r.instances id = some inst) (hchart : inst.chart = ADMISSION)
    (hdata : inst.data = .attempt a) (hactive : inst.active = ∅) (hdeferred : inst.deferred = []) :
    ∃ r' out q inst', microstep r
        { key := id, kind := .start, event := { name := INITIAL, payload := default } } = .ok (r', out, q) ∧
      q.order = [] ∧ r'.deferring = r.deferring ∧
      r'.instances = Function.update r.instances id (some inst') ∧ Waiting inst' a := by
  simp only [microstep, Records.get, hinst, Infra.ok_bind, fire, hchart, initialEntry_admission,
    reduceCtorEq, if_false, if_true, enterStates, Records.write, Function.update_self, call_empty,
    state?_admission, state?_admitted, Option.getD_some, runRows, hactive]
  refine ⟨_, _, _, _, rfl, rfl, rfl, Function.update_idem .., rfl, hdata, ?_, hdeferred⟩
  show insert "admitted" (insert "admission" (∅ : Finset Name)) = _
  decide

theorem rowsFor_decide : (index ADMISSION).rowsFor "admitted" DECIDE = [APPLIED, REJECTED] := by decide

theorem rowsFor_input : (index ADMISSION).rowsFor "admitted" INPUT = [REUSED, SECOND_WRITER] := by decide

/-- The one row a leaf's event enables is the firing set. -/
theorem select_row {ctx : Context String Payload} {row : Row} (hrow : row ∈ ADMISSION_ROWS)
    (henabled : enabled ADMISSION (index ADMISSION) "admitted" ctx.event.name ctx w = .ok (some row)) :
    select ADMISSION (index ADMISSION) {"admission", "admitted"} ctx w = .ok ([row], []) := by
  have hleaves : (index ADMISSION).leaves {"admission", "admitted"} = ["admitted"] := by decide
  have hpath : (index ADMISSION).path "admitted" = ["admitted", "admission"] := by decide
  simp only [select, hleaves, gather, hpath, walk, henabled, Infra.ok_bind]
  simp only [ADMISSION_ROWS, List.mem_cons, List.not_mem_nil, or_false] at hrow
  rcases hrow with rfl | rfl | rfl | rfl <;> rfl

def item (id : String) (event : Event Payload) : Item String Payload := { key := id, kind := .event, event }

theorem enabled_decide (ctx : Context String Payload) (res : ApplyResult)
    (hevent : ctx.event = { name := DECIDE, payload := .result res }) :
    enabled ADMISSION (index ADMISSION) "admitted" ctx.event.name ctx w =
      .ok (some (if res.decision = .applied then APPLIED else REJECTED)) := by
  have happlied : holds ADMISSION "applied" ctx w = .ok (decide (res.decision = .applied)) := by
    show Except.ok (applied ctx w) = _
    rw [applied, hevent]
  have hrejected : holds ADMISSION "rejected" ctx w = .ok (decide (res.decision = .rejected)) := by
    show Except.ok (rejected ctx w) = _
    rw [rejected, hevent]
  rw [enabled, hevent]
  simp only [rowsFor_decide, heldRows, APPLIED, REJECTED, happlied, hrejected, Infra.ok_bind]
  cases res.decision with
  | applied => rfl
  | rejected => rfl

theorem enabled_input (ctx : Context String Payload) (text : String)
    (hevent : ctx.event = { name := INPUT, payload := .fingerprint text }) (hdata : ctx.data = .attempt a) :
    enabled ADMISSION (index ADMISSION) "admitted" ctx.event.name ctx w =
      .ok (some (if text = a.fingerprint then SECOND_WRITER else REUSED)) := by
  have hsame : same ctx w = decide (text = a.fingerprint) := by rw [same, hevent, hdata]
  have hholds : holds ADMISSION "same" ctx w = .ok (decide (text = a.fingerprint)) := by
    show Except.ok (same ctx w) = _
    rw [hsame]
  have hother : holds ADMISSION "other" ctx w = .ok (!decide (text = a.fingerprint)) := by
    show Except.ok (!same ctx w) = _
    rw [hsame]
  rw [enabled, hevent]
  simp only [rowsFor_input, heldRows, REUSED, SECOND_WRITER, hholds, hother, Infra.ok_bind]
  by_cases htext : text = a.fingerprint
  · simp only [htext]
    rfl
  · simp only [htext]
    rfl

/-- A waiting instance's event runs the row it enables. -/
theorem microstep_row {event : Event Payload} {row : Row} (hinst : r.instances id = some inst)
    (hw : Waiting inst a) (hrow : row ∈ ADMISSION_ROWS)
    (henabled : enabled ADMISSION (index ADMISSION) "admitted" event.name (context inst (item id event))
      r.world = .ok (some row)) :
    microstep r (item id event) = fire r (item id event) [row] .fired := by
  have hstale : stale inst event = false := by
    rw [stale, hw.chart]
    rfl
  have hdecide : decideItem inst (item id event) (context inst (item id event)) r.world =
      .ok (.fired [row]) := by
    have hstale' : stale inst (item id event).event = false := hstale
    have hselect := select_row hrow henabled
    simp only [decideItem, hstale', hw.chart, hw.active, hselect]
    rfl
  have hget : r.get (item id event).key = .ok inst := by
    show r.get id = _
    rw [Records.get, hinst]
  have hkind : (item id event).kind = .event := rfl
  simp only [microstep, hget, Infra.ok_bind, hkind, hdecide]

/-- A decision takes the instance to its final state. -/
theorem fire_decide {event : Event Payload} {row : Row} (hrow : row = APPLIED ∨ row = REJECTED)
    (hinst : r.instances id = some inst) (hw : Waiting inst a) :
    ∃ r' out q inst', fire r (item id event) [row] .fired = .ok (r', out, q) ∧ q.order = [] ∧ r'.deferring = r.deferring ∧
      r'.instances = Function.update r.instances id (some inst') ∧ inst'.chart = ADMISSION ∧
      inst'.active = {"admission", row.target} ∧ inst'.deferred = [] := by
  have hkey : (item id event).key = id := rfl
  have hkind : row.kind = .external := by
    rcases hrow with rfl | rfl
    · rfl
    · rfl
  have haction : row.action = "" := by
    rcases hrow with rfl | rfl
    · rfl
    · rfl
  have hexits : ((index ADMISSION).plan row).exits (index ADMISSION) {"admission", "admitted"} =
      .ok ["admitted"] := by
    rcases hrow with rfl | rfl
    · rfl
    · rfl
  have hchoice : (index ADMISSION).choice? row.target = none := rfl
  have hentry : ((index ADMISSION).plan row).entryOf (index ADMISSION) row.target = [row.target] := by
    rcases hrow with rfl | rfl
    · rfl
    · rfl
  have hexit : (((index ADMISSION).state? "admitted").map (·.exit)).getD "" = "" := by decide
  have henter : (((index ADMISSION).state? row.target).map (·.entry)).getD "" = "" := by
    rcases hrow with rfl | rfl
    · rfl
    · rfl
  simp only [fire, hkey, hinst, Infra.ok_bind, reduceCtorEq, if_false, runRows, runRow, hw.chart, hkind, ne_eq,
    not_true_eq_false, hw.active, hexits, exitStates, hexit, call_empty, Records.write, Records.get,
    Function.update_self, haction, hchoice, hentry, enterStates, henter]
  refine ⟨_, _, _, _, rfl, ?_, rfl, Function.update_idem .., rfl, ?_, hw.deferred⟩
  · rcases hrow with rfl | rfl
    · rfl
    · rfl
  · show insert row.target (({"admission", "admitted"} : Finset Name).erase "admitted") = _
    rcases hrow with rfl | rfl
    · decide
    · decide

/-- An input changes nothing; one under another fingerprint is refused. -/
theorem fire_input (event : Event Payload) {row : Row} (hrow : row = REUSED ∨ row = SECOND_WRITER)
    (hinst : r.instances id = some inst) :
    ∃ out q, fire r (item id event) [row] .fired = .ok (r, out, q) ∧ q.order = [] ∧
      out.refusals = if row = REUSED then ["request_id_reused"] else [] := by
  have hkey : (item id event).key = id := rfl
  have hkind : row.kind ≠ .external := by
    rcases hrow with rfl | rfl
    · decide
    · decide
  have haction : row.action = "" := by
    rcases hrow with rfl | rfl
    · rfl
    · rfl
  simp only [fire, hkey, hinst, Infra.ok_bind, reduceCtorEq, if_false, runRows, runRow, Records.get, if_pos hkind,
    haction, call_empty]
  refine ⟨_, _, rfl, rfl, ?_⟩
  rcases hrow with rfl | rfl
  · rfl
  · rfl

end Microstep

/-! ## Runs of the executor -/

/-- Nothing is left to handle. -/
structure Idle (x : Machines) : Prop where
  pool : x.pool = []
  worklist : x.worklist = []
  deferring : x.records.deferring = []

/-- `run`, with fuel for one item that queues nothing. -/
def drain (x : Machines) : Except StatechartError (Option (Machines × List (Outcome String Payload))) :=
  x.run (fun _ r => r.world) 3

section Runs

variable {x : Machines} {id : String} {a : Attempt} {inst : Instance String Payload Unit}

theorem turn_pool {item : Item String Payload} (hidle : x.worklist = [] ∧ x.records.deferring = [])
    (hpool : x.pool = [item]) :
    x.turn (fun _ r => r.world) = .ok (some ({ x with pool := [], worklist := [item] }, none)) := by
  rw [Executor.turn, hidle.1, hpool]
  have hnone : release x.records = .ok none := by
    rw [release, Records.releaseOrder, hidle.2]
    rfl
  simp only [hnone]
  rfl

theorem turn_idle (h : Idle x) : x.turn (fun _ r => r.world) = .ok none := by
  rw [Executor.turn, h.worklist, h.pool]
  have hnone : release x.records = .ok none := by
    rw [release, Records.releaseOrder, h.deferring]
    rfl
  simp only [hnone]
  rfl

/-- One item in the pool whose microstep queues nothing is run on its own. -/
theorem drain_one {item : Item String Payload} {r : Records String Payload Unit}
    {out : Outcome String Payload} {q : Queued String Payload}
    (hidle : x.worklist = [] ∧ x.records.deferring = []) (hpool : x.pool = [item])
    (hstep : microstep x.records item = .ok (r, out, q)) (hq : q.order = []) (hdeferring : r.deferring = []) :
    drain x = .ok (some ({ records := r, pool := [], worklist := [] }, [out])) := by
  have hsecond : Executor.turn (fun _ r => r.world) { x with pool := [], worklist := [item] } =
      .ok (some ({ records := r, pool := [], worklist := [] }, some out)) := by
    simp only [Executor.turn, Executor.step, hstep, Infra.ok_bind, hq]
    rfl
  have hthird : Executor.turn (fun _ r => r.world) ({ records := r, pool := [], worklist := [] } : Machines) =
      .ok none := turn_idle ⟨rfl, rfl, hdeferring⟩
  have hfirst := turn_pool hidle hpool
  simp only [drain, Executor.run, hfirst, Infra.ok_bind]
  rw [hsecond]
  simp only [Infra.ok_bind, hthird]
  rfl

/-- `start` and `run`: a new instance waits for its decision. -/
theorem start_drain (h : Idle x) (hnone : x.records.instances id = none) :
    ∃ x₁ x₂ out inst, x.start id ADMISSION (.attempt a) = .ok x₁ ∧ drain x₁ = .ok (some (x₂, out)) ∧
      Idle x₂ ∧ x₂.records.instances = Function.update x.records.instances id (some inst) ∧ Waiting inst a := by
  let added := x.records.added + 1
  let r₀ : Records String Payload Unit :=
    { x.records.write id { chart := ADMISSION, data := .attempt a, added } with added }
  let first : Item String Payload :=
    { key := id, kind := .start, event := { name := INITIAL, payload := default } }
  have hstart : x.start id ADMISSION (.attempt a) =
      .ok { x with records := r₀, pool := x.pool ++ [first] } := by
    rw [Executor.start, Executor.add, hnone]
    rfl
  obtain ⟨r, out, q, inst, hstep, hq, hdeferring, hinstances, hw⟩ :=
    start_step id a r₀ (Function.update_self ..) rfl rfl rfl rfl
  have hrun := drain_one (x := { x with records := r₀, pool := x.pool ++ [first] })
    ⟨h.worklist, h.deferring⟩ (by rw [h.pool]; rfl) hstep hq (hdeferring.trans h.deferring)
  refine ⟨_, _, _, inst, hstart, hrun, ⟨rfl, rfl, hdeferring.trans h.deferring⟩, ?_, hw⟩
  exact hinstances.trans (Function.update_idem ..)

theorem post_ok {event : Event Payload} (hinst : x.records.instances id = some inst)
    (hchart : inst.chart = ADMISSION) (hname : event.name = DECIDE ∨ event.name = INPUT) :
    x.post id event = .ok { x with pool := x.pool ++ [item id event] } := by
  have hcheck : checkEvent ADMISSION event = .ok () := by
    rw [checkEvent]
    rcases hname with hname | hname
    · rw [hname]
      rfl
    · rw [hname]
      rfl
  rw [Executor.post, Records.get, hinst]
  simp only [Infra.ok_bind, hchart, hcheck]
  rfl

/-- A posted decision takes the instance to a final state, and it is forgotten. -/
theorem decide_drain (res : ApplyResult) (h : Idle x) (hinst : x.records.instances id = some inst)
    (hw : Waiting inst a) :
    ∃ x₁ x₂ x₃ out, x.post id { name := DECIDE, payload := .result res } = .ok x₁ ∧
      drain x₁ = .ok (some (x₂, out)) ∧ x₂.forget id = .ok x₃ ∧ Idle x₃ ∧
      x₃.records.instances = Function.update x.records.instances id none := by
  have henabled := enabled_decide (w := x.records.world)
    (context inst (item id { name := DECIDE, payload := .result res })) res rfl
  generalize hrow : (if res.decision = .applied then APPLIED else REJECTED) = row at henabled
  have hrow' : row = APPLIED ∨ row = REJECTED := by
    rw [← hrow]
    split
    · exact Or.inl rfl
    · exact Or.inr rfl
  have hmem : row ∈ ADMISSION_ROWS := by
    rcases hrow' with rfl | rfl
    · exact List.mem_cons_self
    · exact List.mem_cons_of_mem _ List.mem_cons_self
  obtain ⟨r, out, q, inst', hfire, hq, hdeferring, hinstances, hchart, hactive, hdeferred⟩ :=
    fire_decide hrow' hinst hw
  have hrun := drain_one (x := { x with pool := x.pool ++ [item id { name := DECIDE, payload := .result res }] })
    ⟨h.worklist, h.deferring⟩ (by rw [h.pool]; rfl) ((microstep_row hinst hw hmem henabled).trans hfire) hq
    (hdeferring.trans h.deferring)
  have hforget : Executor.forget ({ records := r } : Machines) id =
      .ok { records := { r with instances := Function.update r.instances id none } } := by
    have hget : r.get id = .ok inst' := by rw [Records.get, hinstances, Function.update_self]
    have hfinal : ¬((index ADMISSION).regions (index ADMISSION).root = [] ∨
        ¬∀ s ∈ ({"admission", row.target} : Finset Name), (index ADMISSION).parent s = some (index ADMISSION).root →
          (index ADMISSION).final s = true) := by
      rcases hrow' with rfl | rfl
      · decide
      · decide
    simp only [Executor.forget, hget, Infra.ok_bind, hchart, hactive, if_neg hfinal, hdeferred]
    rfl
  refine ⟨_, _, _, _, post_ok hinst hw.chart (Or.inl rfl), hrun, hforget,
    ⟨rfl, rfl, hdeferring.trans h.deferring⟩, ?_⟩
  show Function.update r.instances id none = _
  rw [hinstances, Function.update_idem]

/-- A posted input leaves the executor as it was; its refusal tells another fingerprint. -/
theorem input_drain (text : String) (h : Idle x) (hinst : x.records.instances id = some inst)
    (hw : Waiting inst a) :
    ∃ x₁ out, x.post id { name := INPUT, payload := .fingerprint text } = .ok x₁ ∧
      drain x₁ = .ok (some (x, [out])) ∧
      out.refusals = if text = a.fingerprint then [] else ["request_id_reused"] := by
  have henabled := enabled_input (w := x.records.world) (a := a)
    (context inst (item id { name := INPUT, payload := .fingerprint text })) text rfl hw.data
  generalize hrow : (if text = a.fingerprint then SECOND_WRITER else REUSED) = row at henabled
  have hrow' : row = REUSED ∨ row = SECOND_WRITER := by
    rw [← hrow]
    split
    · exact Or.inr rfl
    · exact Or.inl rfl
  have hmem : row ∈ ADMISSION_ROWS := by
    rcases hrow' with rfl | rfl
    · decide
    · decide
  obtain ⟨out, q, hfire, hq, hrefusals⟩ :=
    fire_input { name := INPUT, payload := .fingerprint text } hrow' hinst
  have hrun := drain_one (x := { x with pool := x.pool ++ [item id { name := INPUT, payload := .fingerprint text }] })
    ⟨h.worklist, h.deferring⟩ (by rw [h.pool]; rfl) ((microstep_row hinst hw hmem henabled).trans hfire) hq
    h.deferring
  refine ⟨_, out, post_ok hinst hw.chart (Or.inr rfl), hrun.trans ?_, ?_⟩
  · obtain ⟨records, pool, worklist⟩ := x
    obtain ⟨rfl, rfl, -⟩ := h
    rfl
  · rw [hrefusals, ← hrow]
    split
    · rfl
    · rfl

end Runs

end Dsl41.Admission
