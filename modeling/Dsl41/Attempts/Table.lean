import Dsl41.StateMachine.Legal
import Dsl41.Attempts.Charts

/-!
# The two charts as tables

What an attempt and the engine's life are, apart from the charts that run them: a phase, and what
an observation makes of it. `Board.Shows` says that an executor holds such a board.

* `Board.Shows.sees` — a posted observation does to the executor what the cell's answer says
* `Board.Shows.hears` — the same for an event of the engine's life
-/

namespace Dsl41.Attempts

open Dsl41.Infra Dsl41.StateMachine

/-! ## An attempt -/

inductive Phase where
  | spawning | running | stopping | ended
deriving DecidableEq

def Phase.leaf : Phase → Name
  | .spawning => "SPAWNING"
  | .running => "RUNNING"
  | .stopping => "STOPPING"
  | .ended => "ENDED"

/-- An attempt: its phase, the generation of its record timeout, and its data. -/
structure Cell where
  phase : Phase := .spawning
  generation : Int := 0
  record : AttemptRecord := {}

/-- What is observed of an attempt. -/
inductive Sight where
  | spawned (spawn : Fields)
  | failed (error : Option String)
  | stop (cause : String)
  | exited (record : ExitRecord)
  | gone
  | timeout (generation : Int)
  | died (given : Option AttemptOutcome)

def Sight.event : Sight → Event Payload
  | .spawned spawn => { name := SPAWN_RECORDED, payload := .spawn spawn }
  | .failed error => { name := SPAWN_FAILED, payload := .error error }
  | .stop cause => { name := STOP, payload := .cause cause }
  | .exited record => { name := EXIT_RECORDED, payload := .exit record }
  | .gone => { name := WRAPPER_GONE, payload := .empty }
  | .timeout generation => { name := RECORD_TIMEOUT, payload := .empty, generation := some generation }
  | .died given => { name := ENGINE_DIED, payload := .given given }

/-- The attempt ends. -/
def Cell.ends (c : Cell) (outcome : AttemptOutcome) : Cell × List Intent :=
  ({ c with phase := .ended, record := { c.record with outcome := some outcome } },
    [.recordOutcome outcome, .cancelRecordTimeout])

/-- The attempt's ladder is to run, under a new generation. -/
def Cell.stops (c : Cell) (cause : Option String) : Cell × List Intent :=
  ({ c with phase := .stopping, generation := c.generation + 1, record := { c.record with cause } },
    [.stopAttempt cause, .armRecordTimeout])

/-- How an attempt that no record told the end of ends when its engine died. -/
def Cell.death (c : Cell) (given : Option AttemptOutcome) : AttemptOutcome :=
  given.getD { kind := .unobservable, cause := some ((c.record.cause.filter (· ≠ "")).getD ENGINE_DEATH) }

/-- What an observation makes of an attempt that did not end, none where the chart has no row. -/
def Cell.answerLive (c : Cell) : Sight → Option (Cell × List Intent)
  | .spawned _ => match c.phase with
    | .spawning => some ({ c with phase := .running }, [])
    | .stopping => some (c.stops c.record.cause)
    | _ => none
  | .failed error => if c.phase = .running then none else some (c.ends { kind := .spawnFailed, error })
  | .stop cause => if c.phase = .stopping then some (c, []) else some (c.stops (some cause))
  | .exited record => some (c.ends (outcomeOf record c.record.cause))
  | .gone => some (c.ends { kind := .unobservable, cause := c.record.cause })
  | .timeout generation =>
    if generation ≠ c.generation then some (c, [])
    else if c.phase = .stopping then some (c.ends { kind := .unobservable, cause := c.record.cause })
    else none
  | .died given => some (c.ends (c.death given))

/-- What an observation makes of an attempt. An ended one takes none. -/
def Cell.answer (c : Cell) (sight : Sight) : Option (Cell × List Intent) :=
  if c.phase = .ended then some (c, []) else c.answerLive sight

/-- The ways an observation is answered. -/
inductive Cell.Answered (c : Cell) (sight : Sight) : Cell → List Intent → Prop
  | stays (h : c.phase ≠ .ended → ∀ spawn, sight ≠ .spawned spawn) : Answered c sight c []
  | runs {spawn : Fields} (hphase : c.phase = .spawning) (hsight : sight = .spawned spawn) :
    Answered c sight { c with phase := .running } []
  | stops {cause : Option String} (hne : c.phase ≠ .ended)
    (hcause : (c.phase ≠ .stopping ∧ cause.isSome) ∨ c.phase = .stopping ∧ cause = c.record.cause ∧ ∃ spawn, sight = .spawned spawn) :
    Answered c sight (c.stops cause).1 (c.stops cause).2
  | ends {outcome : AttemptOutcome} (hne : c.phase ≠ .ended) : Answered c sight (c.ends outcome).1 (c.ends outcome).2

theorem Cell.answer_cases {c c' : Cell} {sight : Sight} {intents : List Intent} (h : c.answer sight = some (c', intents)) :
    c.Answered sight c' intents := by
  rw [Cell.answer] at h
  by_cases hended : c.phase = .ended
  · rw [if_pos hended] at h
    cases h
    exact .stays fun hne => absurd hended hne
  rw [if_neg hended] at h
  cases sight with
  | spawned spawn =>
    rw [Cell.answerLive] at h
    cases hp : c.phase with
    | spawning =>
      rw [hp] at h
      cases h
      exact .runs hp rfl
    | stopping =>
      rw [hp] at h
      cases h
      exact .stops hended (.inr ⟨hp, rfl, spawn, rfl⟩)
    | running =>
      rw [hp] at h
      cases h
    | ended => exact absurd hp hended
  | failed error =>
    rw [Cell.answerLive] at h
    split at h
    · cases h
    · cases h
      exact .ends hended
  | stop cause =>
    rw [Cell.answerLive] at h
    split at h
    · cases h
      exact .stays nofun
    · next hp =>
      cases h
      exact .stops hended (.inl ⟨hp, rfl⟩)
  | timeout generation =>
    rw [Cell.answerLive] at h
    split at h
    · cases h
      exact .stays nofun
    · split at h
      · cases h
        exact .ends hended
      · cases h
  | exited record =>
    cases h
    exact .ends hended
  | gone =>
    cases h
    exact .ends hended
  | died given =>
    cases h
    exact .ends hended

/-! ## The engine's life -/

inductive LifePhase where
  | starting | running | draining | stopped
deriving DecidableEq

def LifePhase.leaf : LifePhase → Name
  | .starting => "STARTING"
  | .running => "RUNNING"
  | .draining => "DRAINING"
  | .stopped => "STOPPED"

/-- The engine: its phase and its drain's deadline. -/
structure Life where
  phase : LifePhase := .starting
  deadline : Option ℚ := none

inductive Notice where
  | replayDone
  | stopRequested (request : DrainRequest)
  | allSettled
  | abortDeadline (unsettled : List String)

def Notice.event : Notice → Event Payload
  | .replayDone => { name := REPLAY_DONE, payload := .empty }
  | .stopRequested request => { name := STOP_REQUESTED, payload := .request request }
  | .allSettled => { name := ALL_ATTEMPTS_SETTLED, payload := .empty }
  | .abortDeadline unsettled => { name := ABORT_DEADLINE, payload := .unsettled unsettled }

/-- The deadline of a drain. -/
def DrainRequest.deadline (request : DrainRequest) : ℚ :=
  request.now + request.graceTerm + request.graceKill + DRAIN_MARGIN

/-- What a notice makes of the engine's life, none where the chart has no row. -/
def Life.answer (l : Life) : Notice → Option (Life × List Intent)
  | .replayDone => match l.phase with
    | .starting => some ({ l with phase := .running }, [])
    | .stopped => some (l, [])
    | _ => none
  | .stopRequested request => match l.phase with
    | .starting => some ({ l with phase := .stopped }, [.journalShutdownDuringStartup, .exitProcess 0])
    | .running => some ({ phase := .draining, deadline := some request.deadline },
        [.journalDraining, .stopAttempts ENGINE_STOP, .cancelWatchers, .armAbortDeadline request.deadline])
    | .draining => some ({ l with deadline := some request.now }, [.armAbortDeadline request.now])
    | .stopped => some (l, [])
  | .allSettled => match l.phase with
    | .draining => some ({ l with phase := .stopped }, [.recordCleanShutdown, .exitProcess 0])
    | .stopped => some (l, [])
    | _ => none
  | .abortDeadline unsettled => match l.phase with
    | .draining => some ({ l with phase := .stopped }, [.recordUncleanShutdown unsettled, .exitProcess 0])
    | .stopped => some (l, [])
    | _ => none

/-! ## The executor's board -/

structure Board where
  life : Life := {}
  cells : String → Option Cell := fun _ => none

def Board.write (b : Board) (attempt : String) (c : Cell) : Board :=
  { b with cells := Function.update b.cells attempt (some c) }

def Board.drop (b : Board) (attempt : String) : Board :=
  { b with cells := Function.update b.cells attempt none }

/-- The records hold an attempt as a cell. -/
def Cell.HeldIn (c : Cell) (r : Records Key Payload World) (attempt : String) : Prop :=
  ∃ inst, r.instances (.attempt attempt) = some inst ∧ Resting ATTEMPT c.phase.leaf inst ∧
    inst.data = .attempt attempt ∧ inst.generations RECORD_TIMEOUT = c.generation ∧ r.world.records attempt = c.record

/-- An executor holds the board, and nothing is left to handle. -/
structure Board.Shows (b : Board) (m : Machines) : Prop where
  idle : m.Idle
  life : ∃ inst, m.records.instances .engine = some inst ∧ Resting ENGINE_LIFECYCLE b.life.phase.leaf inst
  deadline : m.records.world.deadline = b.life.deadline
  held : ∀ {a c}, b.cells a = some c → c.HeldIn m.records a
  absent : ∀ {a}, b.cells a = none → m.records.instances (.attempt a) = none

variable {b : Board} {m : Machines} {a : String} {c c' : Cell} {r r' : Records Key Payload World}

/-- The other attempts are held as they were. -/
theorem Cell.HeldIn.frame {x : String} (h : c.HeldIn r x) (hi : r'.instances (.attempt x) = r.instances (.attempt x))
    (hw : r'.world.records x = r.world.records x) : c.HeldIn r' x := by
  obtain ⟨inst, hinst, hrest, hdata, hgeneration, hrecord⟩ := h
  exact ⟨inst, hi.trans hinst, hrest, hdata, hgeneration, hw.trans hrecord⟩

@[simp] theorem Board.write_self : (b.write a c).cells a = some c := Function.update_self ..

theorem Board.write_ne {x : String} (h : x ≠ a) : (b.write a c).cells x = b.cells x := Function.update_of_ne h ..

@[simp] theorem World.setRecord_self (w : World) (a : String) (record : AttemptRecord) :
    (w.setRecord a record).records a = record := Function.update_self ..

theorem World.setRecord_ne {w : World} {x : String} {record : AttemptRecord} (h : x ≠ a) :
    (w.setRecord a record).records x = w.records x := Function.update_of_ne h ..

theorem World.setRecord_same (w : World) (a : String) : w.setRecord a (w.records a) = w := by
  rw [World.setRecord, Function.update_eq_self]

/-- One attempt's instance and record are written. -/
theorem Board.Shows.write (h : b.Shows m) {m' : Machines} (hidle : m'.Idle)
    (hinst : ∃ inst, m'.records.instances = Function.update m.records.instances (.attempt a) (some inst) ∧
      Resting ATTEMPT c'.phase.leaf inst ∧ inst.data = .attempt a ∧ inst.generations RECORD_TIMEOUT = c'.generation)
    (hworld : m'.records.world = m.records.world.setRecord a c'.record) : (b.write a c').Shows m' := by
  obtain ⟨inst, hinstances, hrest, hdata, hgeneration⟩ := hinst
  obtain ⟨engine, hengine, hlife⟩ := h.life
  have hne : ∀ {x}, x ≠ a → m'.records.instances (.attempt x) = m.records.instances (.attempt x) := fun hx =>
    hinstances ▸ Function.update_of_ne (fun h => hx (Key.attempt.inj h)) ..
  have hself : m'.records.instances (.attempt a) = some inst := hinstances ▸ Function.update_self ..
  have hengine' : m'.records.instances .engine = m.records.instances .engine := hinstances ▸ Function.update_of_ne (by simp) ..
  refine ⟨hidle, ⟨engine, hengine'.trans hengine, hlife⟩, hworld ▸ h.deadline, ?_, ?_⟩
  · intro x d hx
    by_cases hxa : x = a
    · subst hxa
      obtain rfl : c' = d := Option.some.inj (Board.write_self.symm.trans hx)
      exact ⟨inst, hself, hrest, hdata, hgeneration, hworld ▸ World.setRecord_self ..⟩
    · exact (h.held ((Board.write_ne hxa).symm.trans hx)).frame (hne hxa) (hworld ▸ World.setRecord_ne hxa)
  · intro x hx
    have hxa : x ≠ a := by
      rintro rfl
      simp at hx
    exact (hne hxa).trans (h.absent ((Board.write_ne hxa).symm.trans hx))

/-! ## An attempt's observations -/

theorem Phase.leaf_mem (p : Phase) : p.leaf ∈ ATTEMPT_STATES := by cases p <;> decide

theorem final_leaf (p : Phase) : (index ATTEMPT).final p.leaf = decide (p = .ended) := by cases p <;> decide

theorem attempt_generational : (index ATTEMPT).generational = [RECORD_TIMEOUT] := by decide

theorem sight_postable (o : Sight) : checkEvent ATTEMPT o.event = .ok () := by
  rw [checkEvent, attempt_generational]
  cases o <;> rfl

/-- Only the record timeout can be stale. -/
theorem stale_sight {s : Name} {inst : Instance Key Payload World} (h : Resting ATTEMPT s inst) (o : Sight) :
    stale inst o.event = match o with
      | .timeout generation => decide (generation ≠ inst.generations RECORD_TIMEOUT)
      | _ => false := by
  rw [stale, h.chart, attempt_generational]
  cases o with
  | timeout generation => simp [Sight.event]
  | _ => rfl

/-- A posted event is handled in one macrostep, which leaves these intents and an executor in `P`. -/
def Answers (m : Machines) (key : Key) (event : Event Payload) (intents : List Intent) (P : Machines → Prop) : Prop :=
  ∃ m' outs, m.dispatch key event = .ok (some (m', outs)) ∧ outs.flatMap (·.intents) = intents.map .intent ∧ P m'

theorem Answers.stays {key : Key} {event : Event Payload} {P : Machines → Prop} (hp : P m)
    (h : ∃ out, m.dispatch key event = .ok (some (m, [out])) ∧ out.intents = []) : Answers m key event [] P := by
  obtain ⟨out, hdispatch, hintents⟩ := h
  exact ⟨m, [out], hdispatch, by simp [hintents], hp⟩

theorem act_named {chart : Statechart Key Payload World} {row : Row} {name : Name} (act : ChartAction)
    (haction : row.action = name) (hname : name ≠ "") (hact : chart.actions name = some act) (ctx : Context Key Payload)
    (w : World) : chart.act row ctx w = ((act ctx w).1.getD {}, (act ctx w).2) := by
  rw [Statechart.act, haction, if_neg hname, hact]

theorem act_unnamed {chart : Statechart Key Payload World} {row : Row} (haction : row.action = "")
    (ctx : Context Key Payload) (w : World) : chart.act row ctx w = ({}, w) := by
  rw [Statechart.act, if_pos haction]

section Actions

variable {ctx : Context Key Payload} {w : World} (hdata : ctx.data = .attempt a)

include hdata

theorem stop_eq {cause : String} (hp : ctx.event.payload = .cause cause) :
    stop ctx w = (reporting [.stopAttempt (some cause), .armRecordTimeout] [RECORD_TIMEOUT],
      w.setRecord a { w.records a with cause := some cause }) := by
  simp only [stop, hdata, hp]

theorem stopAgain_eq : stopAgain ctx w =
    (reporting [.stopAttempt (w.records a).cause, .armRecordTimeout] [RECORD_TIMEOUT], w) := by
  simp only [stopAgain, hdata]

theorem endSpawnFailed_eq {error : Option String} (hp : ctx.event.payload = .error error) :
    endSpawnFailed ctx w = ends w a { kind := .spawnFailed, error } := by
  simp only [endSpawnFailed, hdata, hp]

theorem endFromRecord_eq {record : ExitRecord} (hp : ctx.event.payload = .exit record) :
    endFromRecord ctx w = ends w a (outcomeOf record (w.records a).cause) := by
  simp only [endFromRecord, hdata, hp]

theorem endUnobservable_eq :
    endUnobservable ctx w = ends w a { kind := .unobservable, cause := (w.records a).cause } := by
  simp only [endUnobservable, hdata]

theorem endEngineDied_eq {given : Option AttemptOutcome} (hp : ctx.event.payload = .given given) :
    endEngineDied ctx w = ends w a (given.getD
      { kind := .unobservable, cause := some (((w.records a).cause.filter (· ≠ "")).getD ENGINE_DEATH) }) := by
  simp only [endEngineDied, hdata, hp]

end Actions

theorem Board.write_same (hc : b.cells a = some c) : b.write a c = b := by
  rw [Board.write, ← hc, Function.update_eq_self]

section Sees

variable (h : b.Shows m) (hc : b.cells a = some c) {o : Sight}

include h hc

/-- The chart's row for the observation runs. -/
theorem Board.Shows.fires {row : Row} {intents : List Intent} (timers : List Name)
    (hcurrent : ∀ g, o = .timeout g → g = c.generation) (hrow : ATTEMPT.row? c.phase.leaf o.event.name = some row)
    (hact : ∀ ctx w, ctx.data = .attempt a → ctx.event = o.event → World.records w a = c.record →
      ATTEMPT.act row ctx w = ({ intents := intents.map .intent, rearm := timers }, w.setRecord a c'.record))
    (hnext : row.next = c'.phase.leaf)
    (htimers : ∀ g : Name → Int, g RECORD_TIMEOUT = c.generation → rearmed timers g RECORD_TIMEOUT = c'.generation) :
    Answers m (.attempt a) o.event intents (b.write a c').Shows := by
  obtain ⟨inst, hinst, hrest, hdata, hgeneration, hrecord⟩ := h.held hc
  have hstale : stale inst o.event = false := by
    rw [stale_sight hrest]
    cases o with
    | timeout g => simp [hcurrent g rfl, hgeneration]
    | _ => rfl
  obtain ⟨m', out, hdispatch, hintents, hidle, ⟨inst', hinst', hrest', hdata', hgenerations'⟩, -, hworld⟩ :=
    attempt_flat.dispatch_fired h.idle (Phase.leaf_mem _) hinst hrest (sight_postable o) hstale hrow
      (hact _ _ hdata rfl hrecord)
  refine ⟨m', [out], hdispatch, by simp [hintents], h.write hidle ⟨inst', hinst', hnext ▸ hrest', ?_, ?_⟩ hworld⟩
  · rw [hdata', hdata]
  · rw [hgenerations', htimers _ hgeneration]

/-- The chart's row for the observation ends the attempt. -/
theorem Board.Shows.fires_end {outcome : AttemptOutcome} {act : ChartAction} (name : Name)
    (hcurrent : ∀ g, o = .timeout g → g = c.generation)
    (hrow : ∃ row, ATTEMPT.row? c.phase.leaf o.event.name = some row ∧ row.action = name ∧ row.next = "ENDED")
    (hname : name ≠ "") (hact : ATTEMPT.actions name = some act)
    (hends : ∀ ctx w, ctx.data = .attempt a → ctx.event = o.event → World.records w a = c.record →
      act ctx w = ends w a outcome) :
    Answers m (.attempt a) o.event (c.ends outcome).2 (b.write a (c.ends outcome).1).Shows := by
  obtain ⟨row, hrow, haction, hnext⟩ := hrow
  refine h.fires hc [] hcurrent hrow ?_ hnext fun g hg => hg
  intro ctx w hdata hevent hrecord
  rw [act_named _ haction hname hact, hends ctx w hdata hevent hrecord, ends, hrecord]
  rfl

/-- The chart's row for the observation runs the attempt's ladder. -/
theorem Board.Shows.fires_stop {cause : Option String} {act : ChartAction} (name : Name)
    (hcurrent : ∀ g, o ≠ .timeout g)
    (hrow : ∃ row, ATTEMPT.row? c.phase.leaf o.event.name = some row ∧ row.action = name ∧ row.next = "STOPPING")
    (hname : name ≠ "") (hact : ATTEMPT.actions name = some act)
    (hstops : ∀ ctx w, ctx.data = .attempt a → ctx.event = o.event → World.records w a = c.record →
      act ctx w = (reporting (c.stops cause).2 [RECORD_TIMEOUT], w.setRecord a { c.record with cause })) :
    Answers m (.attempt a) o.event (c.stops cause).2 (b.write a (c.stops cause).1).Shows := by
  obtain ⟨row, hrow, haction, hnext⟩ := hrow
  refine h.fires hc [RECORD_TIMEOUT] (fun g hg => absurd hg (hcurrent g)) hrow ?_ hnext ?_
  · intro ctx w hdata hevent hrecord
    rw [act_named _ haction hname hact, hstops ctx w hdata hevent hrecord]
    rfl
  · intro g hg
    simp [rearmed, hg, Cell.stops]

/-- The chart's row for the observation runs no action. -/
theorem Board.Shows.fires_plain {p : Phase} (hcurrent : ∀ g, o ≠ .timeout g)
    (hrow : ∃ row, ATTEMPT.row? c.phase.leaf o.event.name = some row ∧ row.action = "" ∧ row.next = p.leaf) :
    Answers m (.attempt a) o.event [] (b.write a { c with phase := p }).Shows := by
  obtain ⟨row, hrow, haction, hnext⟩ := hrow
  refine h.fires hc [] (fun g hg => absurd hg (hcurrent g)) hrow ?_ hnext fun g hg => hg
  intro ctx w _ _ hrecord
  rw [act_unnamed haction, ← hrecord, World.setRecord_same]
  rfl

theorem Board.Shows.raises (hcurrent : ∀ g, o = .timeout g → g = c.generation) (hne : c.phase ≠ .ended)
    (hrow : ATTEMPT.row? c.phase.leaf o.event.name = none) :
    m.dispatch (.attempt a) o.event = .error (.unhandledEvent o.event.name [c.phase.leaf]) := by
  obtain ⟨inst, hinst, hrest, -, hgeneration, -⟩ := h.held hc
  refine attempt_flat.dispatch_unhandled h.idle (Phase.leaf_mem _) hinst hrest (sight_postable o) ?_ hrow ?_
  · rw [stale_sight hrest]
    cases o with
    | timeout g => simp [hcurrent g rfl, hgeneration]
    | _ => rfl
  · rw [final_leaf, decide_eq_false hne]

theorem Board.Shows.stays (hstays : c.phase = .ended ∨ ∃ g, o = .timeout g ∧ g ≠ c.generation) :
    Answers m (.attempt a) o.event [] (b.write a c).Shows := by
  obtain ⟨inst, hinst, hrest, -, hgeneration, -⟩ := h.held hc
  rw [Board.write_same hc]
  refine Answers.stays h ?_
  cases hstale : stale inst o.event with
  | true => exact attempt_flat.dispatch_stale h.idle (Phase.leaf_mem _) hinst hrest (sight_postable o) hstale
  | false =>
    rcases hstays with hended | ⟨g, rfl, hg⟩
    · refine attempt_flat.dispatch_final h.idle (Phase.leaf_mem _) hinst hrest (sight_postable o) hstale ?_ ?_
      · rw [hended]
        cases o <;> rfl
      · rw [final_leaf, decide_eq_true hended]
    · rw [stale_sight hrest] at hstale
      simp [hgeneration, hg] at hstale

/-- **A posted observation does to the executor what the cell's answer says.** -/
theorem Board.Shows.sees (o : Sight) :
    match c.answer o with
    | some (c', intents) => Answers m (.attempt a) o.event intents (b.write a c').Shows
    | none => m.dispatch (.attempt a) o.event = .error (.unhandledEvent o.event.name [c.phase.leaf]) := by
  by_cases hended : c.phase = .ended
  · rw [Cell.answer, if_pos hended]
    exact h.stays hc (.inl hended)
  rw [Cell.answer, if_neg hended]
  cases o with
  | spawned spawn =>
    cases hp : c.phase with
    | spawning =>
      simp only [Cell.answerLive, hp]
      exact h.fires_plain hc (p := .running) nofun ⟨_, by rw [hp]; rfl, rfl, rfl⟩
    | running =>
      simp only [Cell.answerLive, hp]
      exact hp ▸ h.raises hc nofun hended (by rw [hp]; rfl)
    | stopping =>
      simp only [Cell.answerLive, hp]
      refine h.fires_stop hc "stop_attempt" nofun ⟨_, by rw [hp]; rfl, rfl, rfl⟩ (by decide) rfl fun ctx w hdata _ hrecord => ?_
      rw [← hrecord]
      exact (stopAgain_eq hdata).trans (congrArg _ (World.setRecord_same ..).symm)
    | ended => exact absurd hp hended
  | failed error =>
    by_cases hp : c.phase = .running
    · rw [Cell.answerLive, if_pos hp]
      exact h.raises hc nofun hended (by rw [hp]; rfl)
    · rw [Cell.answerLive, if_neg hp]
      refine h.fires_end hc "end_spawn_failed" nofun ?_ (by decide) rfl fun ctx w hdata hevent _ => endSpawnFailed_eq hdata (hevent ▸ rfl)
      cases hphase : c.phase with
      | running => exact absurd hphase hp
      | ended => exact absurd hphase hended
      | _ => exact ⟨_, rfl, rfl, rfl⟩
  | stop cause =>
    by_cases hp : c.phase = .stopping
    · rw [Cell.answerLive, if_pos hp]
      have hsame : ({ c with phase := .stopping } : Cell) = c := by rw [← hp]
      exact hsame ▸ h.fires_plain hc (p := .stopping) nofun ⟨_, by rw [hp]; rfl, rfl, rfl⟩
    · rw [Cell.answerLive, if_neg hp]
      refine h.fires_stop hc "stop" nofun ?_ (by decide) rfl fun ctx w hdata hevent hrecord => ?_
      · cases hphase : c.phase with
        | stopping => exact absurd hphase hp
        | ended => exact absurd hphase hended
        | _ => exact ⟨_, rfl, rfl, rfl⟩
      · rw [← hrecord]
        exact stop_eq hdata (hevent ▸ rfl)
  | exited record =>
    refine h.fires_end hc "end_from_record" nofun ?_ (by decide) rfl fun ctx w hdata hevent hrecord => ?_
    · cases hphase : c.phase with
      | ended => exact absurd hphase hended
      | _ => exact ⟨_, rfl, rfl, rfl⟩
    · rw [← hrecord]
      exact endFromRecord_eq hdata (hevent ▸ rfl)
  | gone =>
    refine h.fires_end hc "end_unobservable" nofun ?_ (by decide) rfl fun ctx w hdata _ hrecord => ?_
    · cases hphase : c.phase with
      | ended => exact absurd hphase hended
      | _ => exact ⟨_, rfl, rfl, rfl⟩
    · rw [← hrecord]
      exact endUnobservable_eq hdata
  | timeout g =>
    by_cases hg : g = c.generation
    · have hcurrent : ∀ g', Sight.timeout g = .timeout g' → g' = c.generation := fun g' hg' =>
        (Sight.timeout.inj hg') ▸ hg
      by_cases hp : c.phase = .stopping
      · rw [Cell.answerLive, if_neg (not_not.mpr hg), if_pos hp]
        refine h.fires_end hc "end_unobservable" hcurrent ⟨_, by rw [hp]; rfl, rfl, rfl⟩ (by decide) rfl fun ctx w hdata _ hrecord => ?_
        rw [← hrecord]
        exact endUnobservable_eq hdata
      · rw [Cell.answerLive, if_neg (not_not.mpr hg), if_neg hp]
        refine h.raises hc hcurrent hended ?_
        cases hphase : c.phase with
        | stopping => exact absurd hphase hp
        | ended => exact absurd hphase hended
        | _ => rfl
    · rw [Cell.answerLive, if_pos hg]
      exact h.stays hc (.inr ⟨g, rfl, hg⟩)
  | died given =>
    refine h.fires_end hc "end_engine_died" nofun ?_ (by decide) rfl fun ctx w hdata hevent hrecord => ?_
    · cases hphase : c.phase with
      | ended => exact absurd hphase hended
      | _ => exact ⟨_, rfl, rfl, rfl⟩
    · rw [Cell.death, ← hrecord]
      exact endEngineDied_eq hdata (hevent ▸ rfl)

end Sees

/-! ## Attempts come and go -/

/-- A record written before its attempt is there shows nowhere. -/
theorem Board.Shows.setRecord (h : b.Shows m) (ha : b.cells a = none) (record : AttemptRecord) : b.Shows (m.setRecord a record) := by
  refine ⟨⟨h.idle.pool, h.idle.worklist, h.idle.deferring⟩, h.life, h.deadline, ?_, h.absent⟩
  intro x d hx
  have hxa : x ≠ a := by
    rintro rfl
    exact absurd (hx.symm.trans ha) nofun
  exact (h.held hx).frame rfl (World.setRecord_ne hxa)

/-- An attempt is dispatched. -/
theorem Board.Shows.starts (h : b.Shows m) (ha : b.cells a = none) : ∃ m₁ m₂ out,
    (m.setRecord a {}).start (.attempt a) ATTEMPT (.attempt a) = .ok m₁ ∧ m₁.drain = .ok (some (m₂, [out])) ∧
      (b.write a {}).Shows m₂ := by
  have hset := h.setRecord ha {}
  obtain ⟨m₁, m₂, out, inst, hstart, hdrain, hidle, hinst, hrest, hdata, hgenerations, hworld, -⟩ :=
    attempt_flat.start (s := "SPAWNING") (.attempt a) hset.idle (hset.absent ha) (by decide) (by decide)
  refine ⟨m₁, m₂, out, hstart, hdrain, hset.write hidle ⟨inst, hinst, hrest, hdata, congrFun hgenerations _⟩ ?_⟩
  rw [hworld, Machines.setRecord, World.setRecord, World.setRecord, Function.update_idem]

theorem ended_legal : (index ATTEMPT).Configuration (ATTEMPT.rest "ENDED") := by decide +kernel

/-- An attempt is restored, ended. -/
theorem Board.Shows.restores (h : b.Shows m) (ha : b.cells a = none) (record : AttemptRecord) : ∃ m',
    (m.setRecord a record).restore (.attempt a) ATTEMPT (ATTEMPT.rest "ENDED") (.attempt a) = .ok m' ∧
      (b.write a { phase := .ended, record }).Shows m' := by
  have hset := h.setRecord ha record
  obtain ⟨m', inst, hrestore, hidle, hinst, hrest, hdata, hgenerations, hworld⟩ :=
    restore_rests (s := "ENDED") (Payload.attempt a) (fun _ => 0) hset.idle (hset.absent ha)
      (configurationProblem_none.mpr ended_legal)
  refine ⟨m', hrestore, hset.write hidle ⟨inst, hinst, hrest, hdata, congrFun hgenerations _⟩ ?_⟩
  rw [hworld, Machines.setRecord, World.setRecord, World.setRecord, Function.update_idem]

/-- An ended attempt is forgotten. -/
theorem Board.Shows.forgets (h : b.Shows m) (hc : b.cells a = some c) (hended : c.phase = .ended) :
    ∃ m', m.forget (.attempt a) = .ok m' ∧ (b.drop a).Shows m' := by
  obtain ⟨inst, hinst, hrest, -⟩ := h.held hc
  refine ⟨_, attempt_flat.forget h.idle hinst hrest (Phase.leaf_mem _) (by rw [final_leaf, decide_eq_true hended]), ?_⟩
  obtain ⟨engine, hengine, hlife⟩ := h.life
  have hother : ∀ key : Key, key ≠ .attempt a →
      Function.update m.records.instances (.attempt a) none key = m.records.instances key := fun _ hx => Function.update_of_ne hx ..
  have hne : ∀ {x}, x ≠ a → Function.update m.records.instances (.attempt a) none (.attempt x) =
      m.records.instances (.attempt x) := fun hx => hother _ fun h => hx (Key.attempt.inj h)
  refine ⟨⟨h.idle.pool, h.idle.worklist, h.idle.deferring⟩, ⟨engine, ?_, hlife⟩, h.deadline, ?_, ?_⟩
  · exact (hother .engine nofun).trans hengine
  · intro x d hx
    have hxa : x ≠ a := by
      rintro rfl
      simp [Board.drop] at hx
    exact (h.held ((Function.update_of_ne hxa ..).symm.trans hx)).frame (hne hxa) rfl
  · intro x hx
    by_cases hxa : x = a
    · subst hxa
      exact Function.update_self ..
    · exact (hne hxa).trans (h.absent ((Function.update_of_ne hxa ..).symm.trans hx))

/-! ## The notices of the engine's life -/

def Board.living (b : Board) (l : Life) : Board := { b with life := l }

/-- The engine's instance and its deadline are written. -/
theorem Board.Shows.living (h : b.Shows m) {m' : Machines} {l : Life} (hidle : m'.Idle)
    (hinst : ∃ inst, m'.records.instances = Function.update m.records.instances .engine (some inst) ∧
      Resting ENGINE_LIFECYCLE l.phase.leaf inst)
    (hworld : m'.records.world = { m.records.world with deadline := l.deadline }) : (b.living l).Shows m' := by
  obtain ⟨inst, hinstances, hrest⟩ := hinst
  have hsame : ∀ x, m'.records.instances (.attempt x) = m.records.instances (.attempt x) := fun x =>
    hinstances ▸ Function.update_of_ne (by simp) ..
  refine ⟨hidle, ⟨inst, hinstances ▸ Function.update_self .., hrest⟩, hworld ▸ rfl, ?_, ?_⟩
  · intro x d hx
    exact (h.held hx).frame (hsame x) (hworld ▸ rfl)
  · intro x hx
    exact (hsame x).trans (h.absent hx)

theorem LifePhase.leaf_mem (p : LifePhase) : p.leaf ∈ LIFECYCLE_STATES := by cases p <;> decide

theorem final_life (p : LifePhase) : (index ENGINE_LIFECYCLE).final p.leaf = decide (p = .stopped) := by cases p <;> decide

theorem lifecycle_generational : (index ENGINE_LIFECYCLE).generational = [] := by decide

theorem notice_postable (n : Notice) : checkEvent ENGINE_LIFECYCLE n.event = .ok () := by
  rw [checkEvent, lifecycle_generational]
  cases n <;> rfl

theorem stale_notice {s : Name} {inst : Instance Key Payload World} (h : Resting ENGINE_LIFECYCLE s inst)
    (event : Event Payload) : stale inst event = false := by
  rw [stale, h.chart, lifecycle_generational]
  simp

section Hears

variable (h : b.Shows m) {n : Notice}

include h

/-- The chart's row for the notice runs. -/
theorem Board.Shows.lives {row : Row} {intents : List Intent} {l : Life} (hrow : ENGINE_LIFECYCLE.row? b.life.phase.leaf n.event.name = some row)
    (hact : ∀ ctx w, ctx.event = n.event → World.deadline w = b.life.deadline →
      ENGINE_LIFECYCLE.act row ctx w = ({ intents := intents.map .intent }, { w with deadline := l.deadline }))
    (hnext : row.next = l.phase.leaf) : Answers m .engine n.event intents (b.living l).Shows := by
  obtain ⟨inst, hinst, hrest⟩ := h.life
  obtain ⟨m', out, hdispatch, hintents, hidle, ⟨inst', hinst', hrest', -, -⟩, -, hworld⟩ :=
    lifecycle_flat.dispatch_fired h.idle (LifePhase.leaf_mem _) hinst hrest (notice_postable n) (stale_notice hrest _) hrow
      (hact _ _ rfl h.deadline)
  exact ⟨m', [out], hdispatch, by simp [hintents], h.living hidle ⟨inst', hinst', hnext ▸ hrest'⟩ hworld⟩

theorem Board.Shows.lives_on (hstopped : b.life.phase = .stopped) :
    Answers m .engine n.event [] (b.living b.life).Shows := by
  obtain ⟨inst, hinst, hrest⟩ := h.life
  refine Answers.stays h (lifecycle_flat.dispatch_final h.idle (LifePhase.leaf_mem _) hinst hrest (notice_postable n)
    (stale_notice hrest _) ?_ ?_)
  · rw [hstopped]
    cases n <;> rfl
  · rw [final_life, decide_eq_true hstopped]

theorem Board.Shows.life_raises (hstopped : b.life.phase ≠ .stopped)
    (hrow : ENGINE_LIFECYCLE.row? b.life.phase.leaf n.event.name = none) :
    m.dispatch .engine n.event = .error (.unhandledEvent n.event.name [b.life.phase.leaf]) := by
  obtain ⟨inst, hinst, hrest⟩ := h.life
  refine lifecycle_flat.dispatch_unhandled h.idle (LifePhase.leaf_mem _) hinst hrest (notice_postable n)
    (stale_notice hrest _) hrow ?_
  rw [final_life, decide_eq_false hstopped]

/-- **A notice does to the executor what the life's answer says.** -/
theorem Board.Shows.hears (n : Notice) :
    match b.life.answer n with
    | some (l, intents) => Answers m .engine n.event intents (b.living l).Shows
    | none => m.dispatch .engine n.event = .error (.unhandledEvent n.event.name [b.life.phase.leaf]) := by
  cases n with
  | replayDone =>
    cases hp : b.life.phase with
    | starting =>
      simp only [Life.answer, hp]
      refine h.lives (by rw [hp]; rfl) (fun ctx w _ hdeadline => ?_) rfl
      rw [act_unnamed rfl, ← hdeadline]
      rfl
    | stopped =>
      simp only [Life.answer, hp]
      exact h.lives_on hp
    | _ =>
      simp only [Life.answer, hp]
      exact hp ▸ h.life_raises (by simp [hp]) (by rw [hp]; rfl)
  | stopRequested request =>
    cases hp : b.life.phase with
    | starting =>
      simp only [Life.answer, hp]
      refine h.lives (by rw [hp]; rfl) (fun ctx w _ hdeadline => ?_) rfl
      rw [act_named _ rfl (by decide) rfl, ← hdeadline]
      rfl
    | running =>
      simp only [Life.answer, hp]
      refine h.lives (by rw [hp]; rfl) (fun ctx w hevent _ => ?_) rfl
      rw [act_named beginDrain rfl (by decide) rfl, beginDrain, hevent]
      rfl
    | draining =>
      simp only [Life.answer, hp]
      refine h.lives (by rw [hp]; rfl) (fun ctx w hevent _ => ?_) rfl
      rw [act_named deadlineNow rfl (by decide) rfl, deadlineNow, hevent]
      rfl
    | stopped =>
      simp only [Life.answer, hp]
      exact h.lives_on hp
  | allSettled =>
    cases hp : b.life.phase with
    | draining =>
      simp only [Life.answer, hp]
      refine h.lives (by rw [hp]; rfl) (fun ctx w _ hdeadline => ?_) rfl
      rw [act_named _ rfl (by decide) rfl, ← hdeadline]
      rfl
    | stopped =>
      simp only [Life.answer, hp]
      exact h.lives_on hp
    | _ =>
      simp only [Life.answer, hp]
      exact hp ▸ h.life_raises (by simp [hp]) (by rw [hp]; rfl)
  | abortDeadline unsettled =>
    cases hp : b.life.phase with
    | draining =>
      simp only [Life.answer, hp]
      refine h.lives (by rw [hp]; rfl) (fun ctx w hevent hdeadline => ?_) rfl
      rw [act_named uncleanShutdown rfl (by decide) rfl, uncleanShutdown, hevent, ← hdeadline]
      rfl
    | stopped =>
      simp only [Life.answer, hp]
      exact h.lives_on hp
    | _ =>
      simp only [Life.answer, hp]
      exact hp ▸ h.life_raises (by simp [hp]) (by rw [hp]; rfl)

end Hears

end Dsl41.Attempts
