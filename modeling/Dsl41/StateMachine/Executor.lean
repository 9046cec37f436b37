import Mathlib.Logic.Function.Basic
import Mathlib.Data.Finset.Sort
import Dsl41.StateMachine.Select

/-!
# The executor

One worklist and one pool for all instances. A microstep handles one item: it selects, runs the
firing set and queues what its actions reported. `turn` is one round of the loop of
`Executor.run`.

The records of the instances, which every function below reads and writes, are separate from
the two queues, which only `step` and `turn` touch. The history rings and the item in hand serve
error reports and are left out; the path that `Context.count` reads is in `Ancestry`.
-/

namespace Dsl41.StateMachine

variable {κ υ ω : Type}

/-- `_Deferred`. -/
structure Deferred (υ : Type) where
  event : Event υ
  states : List Name

/-- `_Instance`: one instance's record. `entered` holds each state's latest entry serial. -/
structure Instance (κ υ ω : Type) where
  chart : Statechart κ υ ω
  data : υ
  active : Finset Name := ∅
  deferred : List (Deferred υ) := []
  generations : Name → Int := fun _ => 0
  entered : Name → Nat := fun _ => 0
  entries : Nat := 0
  added : Nat := 0

inductive ItemKind where
  | event | completion | continuation | start
  deriving DecidableEq, Repr

/-- `_Item`: one worklist item. `name` is the completing state or the continuation; `serial` is
a completion's entry serial of its state. -/
structure Item (κ υ : Type) where
  key : κ
  kind : ItemKind
  event : Event υ
  ancestry : List (Link κ) := []
  name : Name := ""
  released : Bool := false
  serial : Nat := 0

/-- `_Microstep`: what one microstep gathers while it runs. `left` is a ghost: the states it
exited, in order. -/
structure Microstep (κ υ : Type) where
  item : Item κ υ
  reported : List (Item κ υ) := []
  continuations : List (Item κ υ) := []
  entered : List Name := []
  branches : List Name := []
  intents : List υ := []
  left : List Name := []

/-- The ancestry of the items a microstep produces. -/
def Microstep.chained (step : Microstep κ υ) : List (Link κ) :=
  step.item.ancestry ++ [(step.item.key, step.item.event.name)]

inductive OutcomeKind where
  | started | fired | deferred | overflowed | discarded | continued
  deriving DecidableEq, Repr

/-- The result of one microstep. -/
structure Outcome (κ υ : Type) where
  key : κ
  event : Event υ
  kind : OutcomeKind
  rows : List Name := []
  branches : List Name := []
  ignored : List Name := []
  refusals : List String := []
  intents : List υ := []
  depth : Nat := 0
  released : Bool := false
  action : Name := ""

/-- The instances, the keys with a deferred queue, the last addition's serial and the world. -/
structure Records (κ υ ω : Type) where
  instances : κ → Option (Instance κ υ ω)
  deferring : List κ := []
  added : Nat := 0
  world : ω

section Records

variable [DecidableEq κ]

/-- `_instance`. -/
def Records.get (r : Records κ υ ω) (key : κ) : Except StatechartError (Instance κ υ ω) :=
  match r.instances key with
  | some inst => .ok inst
  | none => .error .noInstance

/-- `_write`: the one write of an instance. -/
def Records.write (r : Records κ υ ω) (key : κ) (inst : Instance κ υ ω) : Records κ υ ω :=
  { r with instances := Function.update r.instances key (some inst) }

/-- `_check_event`. -/
def checkEvent (chart : Statechart κ υ ω) (event : Event υ) : Except StatechartError Unit :=
  if event.name = COMPLETION ∨ event.name = OVERFLOWED ∨ event.name = INITIAL then
    .error (.notPostable event.name)
  else if event.name ∈ (index chart).generational ∧ event.generation = none then
    .error (.needsGeneration event.name)
  else .ok ()

/-- `_context`. -/
def context (inst : Instance κ υ ω) (item : Item κ υ) (quiet : Bool := false) : Context κ υ where
  key := item.key
  event := item.event
  active := inst.active
  data := inst.data
  ancestry := item.ancestry
  quiet := quiet
  completing := if item.kind = .completion then item.name else ""

/-! ## Running one action -/

/-- The events an action sends, each an item for an instance of the same executor. -/
def reportSends (r : Records κ υ ω) :
    List (κ × Event υ) → Microstep κ υ → Except StatechartError (Microstep κ υ)
  | [], step => .ok step
  | (key, event) :: sends, step => do
    checkEvent (← r.get key).chart event
    let item : Item κ υ := { key, kind := .event, event, ancestry := step.chained }
    reportSends r sends { step with reported := step.reported ++ [item] }

/-- The time events an action re-arms: each one's generation moves on. -/
def rearmAll (chart : Statechart κ υ ω) (key : κ) :
    List Name → Records κ υ ω → Except StatechartError (Records κ υ ω)
  | [], r => .ok r
  | timer :: timers, r => do
    if timer ∉ (index chart).generational then throw (.notRearmable timer)
    let inst ← r.get key
    rearmAll chart key timers (r.write key
      { inst with
        generations := Function.update inst.generations timer (inst.generations timer + 1) })

/-- `_call`: run one action and gather what it reports. -/
def call (r : Records κ υ ω) (step : Microstep κ υ) (name : Name) :
    Except StatechartError (Records κ υ ω × Microstep κ υ) :=
  if name = "" then .ok (r, step)
  else do
    let item := step.item
    let inst ← r.get item.key
    match inst.chart.actions name with
    | none => .error (.notInRegistry "action" name)
    | some action =>
      let (effects, world) := action (context inst item) r.world
      let r := { r with world }
      match effects with
      | none => return (r, step)
      | some fx =>
        let step ← reportSends r fx.send step
        let next : Item κ υ :=
          { key := item.key, kind := .continuation, event := item.event,
            ancestry := step.chained, name := fx.andThen }
        let step := { step with
          continuations := if fx.andThen = "" then step.continuations
            else step.continuations ++ [next]
          intents := step.intents ++ fx.intents }
        return (← rearmAll inst.chart item.key fx.rearm r, step)

/-! ## Running a firing set -/

/-- The exits of a row: each state's exit action, then the state goes. -/
def exitStates (ix : Index) :
    List Name → Records κ υ ω → Microstep κ υ →
    Except StatechartError (Records κ υ ω × Microstep κ υ)
  | [], r, step => .ok (r, step)
  | state :: states, r, step => do
    let (r, step) ← call r step (((ix.state? state).map (·.exit)).getD "")
    let inst ← r.get step.item.key
    exitStates ix states
      (r.write step.item.key { inst with active := inst.active.erase state })
      { step with left := step.left ++ [state] }

/-- `_enter`: each state is entered with a new serial, then its entry action runs. -/
def enterStates (ix : Index) :
    List Name → Records κ υ ω → Microstep κ υ →
    Except StatechartError (Records κ υ ω × Microstep κ υ)
  | [], r, step => .ok (r, step)
  | state :: states, r, step => do
    let inst ← r.get step.item.key
    let r := r.write step.item.key
      { inst with
        active := insert state inst.active
        entries := inst.entries + 1
        entered := Function.update inst.entered state (inst.entries + 1) }
    let (r, step) ← call r step (((ix.state? state).map (·.entry)).getD "")
    enterStates ix states r { step with entered := step.entered ++ [state] }

/-- The first branch whose guard holds. -/
def firstBranch (chart : Statechart κ υ ω) (ctx : Context κ υ) (world : ω) :
    List Branch → Except StatechartError (Option Branch)
  | [] => .ok none
  | branch :: branches => do
    if ← holds chart branch.guard ctx world then return some branch
    else firstBranch chart ctx world branches

/-- `_choose`: resolve a choice inside the microstep. -/
def choose (r : Records κ υ ω) (step : Microstep κ υ) (choice : Choice) :
    Except StatechartError (Records κ υ ω × Microstep κ υ × Name) := do
  let inst ← r.get step.item.key
  match ← firstBranch inst.chart (context inst step.item) r.world choice.branches with
  | none => .error (.noEnabledBranch choice.name)
  | some branch =>
    let (r, step) ← call r { step with branches := step.branches ++ [branch.id] } branch.action
    return (r, step, branch.target)

/-- `_run_row`. -/
def runRow (r : Records κ υ ω) (step : Microstep κ υ) (row : Row) :
    Except StatechartError (Records κ υ ω × Microstep κ υ) := do
  let inst ← r.get step.item.key
  let ix := index inst.chart
  if row.kind ≠ .external then call r step row.action
  else
    let plan := ix.plan row
    let exits ← plan.exits ix inst.active
    let (r, step) ← exitStates ix exits r step
    let (r, step) ← call r step row.action
    match ix.choice? row.target with
    | none => enterStates ix (plan.entryOf ix row.target) r step
    | some choice =>
      let (r, step, target) ← choose r step choice
      enterStates ix (plan.entryOf ix target) r step

def runRows : List Row → Records κ υ ω → Microstep κ υ →
    Except StatechartError (Records κ υ ω × Microstep κ υ)
  | [], r, step => .ok (r, step)
  | row :: rows, r, step => do
    let (r, step) ← runRow r step row
    runRows rows r step

/-- The state that the entry of `state` may complete: itself when it is simple; for a final
state its parent, once every region of the parent rests in a final state. -/
def completedBy (ix : Index) (active : Finset Name) (state : Name) : Option Name :=
  if ix.final state then
    let owner := (ix.parent state).getD ix.root
    if ∀ s ∈ active, ix.parent s = some owner → ix.final s = true then some owner else none
  else if ix.regions state = [] then some state else none

/-- The states with a completion row that a microstep's entries completed, in entry order. -/
def completedStates (ix : Index) (active : Finset Name) : List Name → List Name → List Name
  | [], states => states
  | entered :: rest, states =>
    match completedBy ix active entered with
    | some state =>
      if ix.rowsFor state COMPLETION ≠ [] ∧ state ∉ states then
        completedStates ix active rest (states ++ [state])
      else completedStates ix active rest states
    | none => completedStates ix active rest states

/-- `_completions`: the completion items of what a microstep entered, in entry order. -/
def completions (ix : Index) (inst : Instance κ υ ω) (step : Microstep κ υ) :
    List (Item κ υ) :=
  (completedStates ix inst.active step.entered []).map fun state =>
    { key := step.item.key, kind := .completion,
      event := { name := COMPLETION, payload := step.item.event.payload },
      ancestry := step.chained, name := state, serial := inst.entered state }

/-- What a microstep queues: `_queue_order` puts the three lists one after the other. -/
structure Queued (κ υ : Type) where
  reported : List (Item κ υ) := []
  continuations : List (Item κ υ) := []
  completions : List (Item κ υ) := []
  left : List Name := []

/-- `_queue_order`: reported items, continuations, then completions. -/
def Queued.order (q : Queued κ υ) : List (Item κ υ) :=
  q.reported ++ q.continuations ++ q.completions

/-- What running a microstep gives: the records, the outcome and what it queues. -/
abbrev Ran (κ υ ω : Type) := Records κ υ ω × Outcome κ υ × Queued κ υ

/-- `_fire`: execute a firing set in region order. -/
def fire (r : Records κ υ ω) (item : Item κ υ) (rows : List Row) (kind : OutcomeKind) :
    Except StatechartError (Ran κ υ ω) := do
  let ix := index (← r.get item.key).chart
  let (r, step) ← (if kind = .continued then call r { item } item.name else .ok (r, { item }))
  let (r, step) ←
    (if kind = .started then enterStates ix ix.initialEntry r step else .ok (r, step))
  let (r, step) ← runRows rows r step
  let inst ← r.get item.key
  return (r,
    { key := item.key, event := item.event, kind,
      rows := rows.map (·.id), branches := step.branches,
      ignored := (rows.filter (·.kind = .ignored)).map (·.id),
      refusals := (rows.filter (·.kind = .refusal)).map (·.code),
      intents := step.intents, depth := item.ancestry.length, released := item.released,
      action := if kind = .continued then item.name else "" },
    { reported := step.reported, continuations := step.continuations,
      completions := completions ix inst step, left := step.left })

/-! ## One microstep -/

/-- `_outcome`. -/
def outcome (item : Item κ υ) (kind : OutcomeKind) : Outcome κ υ :=
  { key := item.key, event := item.event, kind, depth := item.ancestry.length,
    released := item.released }

/-- `_stale`: a re-armable time event of an older generation. -/
def stale (inst : Instance κ υ ω) (event : Event υ) : Bool :=
  event.name ∈ (index inst.chart).generational ∧
    event.generation ≠ some (inst.generations event.name)

/-- `_occurrence_gone`: a completion's state was left, or left and re-entered, since it was
queued. -/
def occurrenceGone (inst : Instance κ υ ω) (item : Item κ υ) : Bool :=
  item.name ∉ inst.active ∨ inst.entered item.name ≠ item.serial

/-- What an event item comes to. -/
inductive Decision where
  | discarded
  | fired (rows : List Row)
  | deferred (states : List Name)

/-- `_decide`: changes nothing. A final state's implicit ignore is `fired` with no row. -/
def decideItem (inst : Instance κ υ ω) (item : Item κ υ) (ctx : Context κ υ) (world : ω) :
    Except StatechartError Decision := do
  if stale inst item.event then return .discarded
  let ix := index inst.chart
  let (firing, deferring) ← select inst.chart ix inst.active ctx world
  if firing ≠ [] then return .fired firing
  if deferring ≠ [] then return .deferred deferring
  if ix.finalLeaves inst.active ≠ [] then return .fired []
  throw (.unhandledEvent item.event.name (ix.leaves inst.active))

/-- `_defer`: queue the event, or apply the overflow policy. -/
def deferItem (r : Records κ υ ω) (inst : Instance κ υ ω) (item : Item κ υ)
    (deferring : List Name) (ctx : Context κ υ) : Except StatechartError (Ran κ υ ω) :=
  let chart := inst.chart
  if inst.deferred.length < chart.deferBound then
    let r := r.write item.key
      { inst with deferred := inst.deferred ++ [⟨item.event, deferring⟩] }
    .ok ({ r with deferring :=
        if item.key ∈ r.deferring then r.deferring else r.deferring ++ [item.key] },
      outcome item .deferred, {})
  else if chart.overflow ≠ .drop then
    .error (.deferralOverflow chart.deferBound item.event.name)
  else do
    let state := deferring.headD ""
    match ← enabled chart (index chart) state OVERFLOWED ctx r.world with
    | none => .error (.noOverflowedRow state)
    | some row => fire r item [row] .overflowed

/-- `_step`: one microstep. -/
def microstep (r : Records κ υ ω) (item : Item κ υ) : Except StatechartError (Ran κ υ ω) := do
  let inst ← r.get item.key
  let ctx := context inst item
  match item.kind with
  | .continuation => fire r item [] .continued
  | .start => fire r item [] .started
  | .completion =>
    if occurrenceGone inst item then return (r, outcome item .discarded, {})
    match ← enabled inst.chart (index inst.chart) item.name COMPLETION ctx r.world with
    | none => .error (.unhandledCompletion item.name)
    | some row => fire r item [row] .fired
  | .event =>
    match ← decideItem inst item ctx r.world with
    | .discarded => return (r, outcome item .discarded, {})
    | .fired rows => fire r item rows .fired
    | .deferred states => deferItem r inst item states ctx

end Records

/-! ## The worklist -/

/-- The executor: the records, the pool of root items and the worklist. -/
structure Executor (κ υ ω : Type) where
  records : Records κ υ ω
  pool : List (Item κ υ) := []
  worklist : List (Item κ υ) := []

/-- `deque.extendleft`: each element goes to the front in turn. -/
def extendLeft {α : Type} (deque : List α) (l : List α) : List α :=
  l.foldl (fun d x => x :: d) deque

/-- The tier's hook: what the world is after it was told an outcome. It may read the records. -/
abbrev Hook (κ υ ω : Type) := Outcome κ υ → Records κ υ ω → ω

section Run

variable [DecidableEq κ]

/-- One item in hand: its microstep, what it queues at the worklist's front, then the hook. -/
def Executor.step (after : Hook κ υ ω) (e : Executor κ υ ω) (item : Item κ υ) :
    Except StatechartError (Executor κ υ ω × Outcome κ υ) := do
  let (r, out, queued) ← microstep e.records item
  return ({ e with
    records := { r with world := after out r }
    worklist := extendLeft e.worklist queued.order.reverse }, out)

/-- The configuration still defers the head of a deferred queue. -/
def headWaits (r : Records κ υ ω) (inst : Instance κ υ ω) (item : Item κ υ) :
    Except StatechartError Bool :=
  if stale inst item.event then .ok false
  else do
    let (firing, deferring) ←
      select inst.chart (index inst.chart) inst.active (context inst item) r.world
    return firing = [] ∧ deferring ≠ []

/-- `_release`: the first deferred head its configuration does not defer, as a root item. -/
def releaseFrom (r : Records κ υ ω) : List κ →
    Except StatechartError (Option (Item κ υ × Records κ υ ω))
  | [] => .ok none
  | key :: keys => do
    let inst ← r.get key
    match inst.deferred with
    | [] => .error .stopIteration
    | head :: tail =>
      let item : Item κ υ := { key, kind := .event, event := head.event, released := true }
      if ← headWaits r inst item then releaseFrom r keys
      else
        let r := r.write key { inst with deferred := tail }
        return some (item,
          { r with deferring := if tail = [] then r.deferring.filter (· ≠ key)
            else r.deferring })

/-- The keys with a deferred queue, in the order of their addition. -/
def Records.releaseOrder (r : Records κ υ ω) : List κ :=
  r.deferring.insertionSort fun a b =>
    ((r.instances a).map (·.added)).getD 0 ≤ ((r.instances b).map (·.added)).getD 0

def release (r : Records κ υ ω) : Except StatechartError (Option (Item κ υ × Records κ υ ω)) :=
  releaseFrom r r.releaseOrder

/-- One round of the loop of `run`: the next item's microstep, or with an empty worklist the
next root item, a released one ahead of the pool; none when nothing is left. -/
def Executor.turn (after : Hook κ υ ω) (e : Executor κ υ ω) :
    Except StatechartError (Option (Executor κ υ ω × Option (Outcome κ υ))) := do
  match e.worklist with
  | item :: rest =>
    let (e, out) ← Executor.step after { e with worklist := rest } item
    return some (e, some out)
  | [] =>
    match ← release e.records with
    | some (item, r) => return some ({ e with records := r, worklist := [item] }, none)
    | none =>
      match e.pool with
      | item :: pool => return some ({ e with pool, worklist := [item] }, none)
      | [] => return none

/-- `run`: every item to completion, with each microstep's outcome; none when the fuel does not
last. -/
def Executor.run (after : Hook κ υ ω) : Nat → Executor κ υ ω →
    Except StatechartError (Option (Executor κ υ ω × List (Outcome κ υ)))
  | 0, _ => .ok none
  | n + 1, e => do
    match ← e.turn after with
    | none => return some (e, [])
    | some (e, out) =>
      match ← Executor.run after n e with
      | none => return none
      | some (e, outs) => return some (e, out.toList ++ outs)

/-! ## The tier's calls -/

def Executor.idle (world : ω) : Executor κ υ ω := { records := { instances := fun _ => none, world } }

/-- `_add`. -/
def Executor.add (e : Executor κ υ ω) (key : κ) (inst : Instance κ υ ω) :
    Except StatechartError (Executor κ υ ω) :=
  match e.records.instances key with
  | some _ => .error .instanceExists
  | none =>
    let added := e.records.added + 1
    .ok { e with records := { e.records.write key { inst with added } with added } }

/-- `start`: add an instance. Its initial entry runs as a root item of the next run; the event
of that item carries the default payload. -/
def Executor.start [Inhabited υ] (e : Executor κ υ ω) (key : κ) (chart : Statechart κ υ ω)
    (data : υ) : Except StatechartError (Executor κ υ ω) := do
  let e ← e.add key { chart, data }
  return { e with pool :=
    e.pool ++ [{ key, kind := .start, event := { name := INITIAL, payload := default } }] }

/-- How many active states one region of a state holds. -/
def regionCount (ix : Index) (active : Finset Name) (state : Name) (slot : Nat) : Nat :=
  (active.filter fun c => ix.parent c = some state ∧ ix.slot c = slot).card

/-- What is wrong at one active state. -/
def stateProblem (ix : Index) (active : Finset Name) (state : Name) :
    Option ConfigurationProblem :=
  match (ix.parent state).filter (· ∉ active) with
  | some parent => some (.parentNotActive state parent)
  | none =>
    (ix.regions state).zipIdx.findSome? fun (region, slot) =>
      let count := regionCount ix active state slot
      if count = 1 then none else some (.regionCount state count region.name)

/-- `_configuration_problem`: why a set is no configuration of the chart; none when it is. -/
def configurationProblem (ix : Index) (active : Finset Name) : Option ConfigurationProblem :=
  let states := active.sort (· ≤ ·)
  match states.filter (· ∉ ix.order) with
  | state :: _ => some (.notDeclared state)
  | [] =>
    if ix.root ∉ active then some (.rootNotActive ix.root)
    else states.findSome? (stateProblem ix active)

/-- `restore`: add an instance in a given configuration; no action runs. -/
def Executor.restore (e : Executor κ υ ω) (key : κ) (chart : Statechart κ υ ω)
    (active : Finset Name) (data : υ) (generations : Name → Int := fun _ => 0) :
    Except StatechartError (Executor κ υ ω) :=
  match configurationProblem (index chart) active with
  | some problem => .error (.notAConfiguration problem)
  | none => e.add key { chart, data, active, generations }

/-- `post`: put an external event in the pool. -/
def Executor.post (e : Executor κ υ ω) (key : κ) (event : Event υ) :
    Except StatechartError (Executor κ υ ω) := do
  checkEvent (← e.records.get key).chart event
  return { e with pool := e.pool ++ [{ key, kind := .event, event }] }

/-- `forget`: remove an instance resting in a final configuration, with nothing to handle. -/
def Executor.forget (e : Executor κ υ ω) (key : κ) : Except StatechartError (Executor κ υ ω) := do
  let inst ← e.records.get key
  let ix := index inst.chart
  if ix.regions ix.root = [] ∨
      ¬ ∀ s ∈ inst.active, ix.parent s = some ix.root → ix.final s = true then
    throw .notFinal
  if inst.deferred ≠ [] ∨ e.pool.any (·.key = key) then throw .eventsStillToHandle
  return { e with records :=
    { e.records with instances := Function.update e.records.instances key none } }

end Run

end Dsl41.StateMachine
