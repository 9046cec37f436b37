import Dsl41.Oracle.Frame
import Dsl41.Oracle.Swap
import Dsl41.Store.Instances

/-!
# Runs of the oracle

What a predicate of the oracle needs to survive an input, whether it returns or raises, in two
layers. `Conserved` asks that it survive the writes outside cascades and each root item, and
`Conserved.input` carries it through the loops of an input. `Closed` asks that it survive every
turn, and gives the root items (`Closed.conserved`).
-/

namespace Dsl41.Oracle

open Dsl41.Infra Dsl41.Infra.Effect Dsl41.Store
open Dsl41.StateMachine (Name Executor Round)

variable {R : OracleStore → OracleStore → Prop} {P Q : Machine → Prop} {e : Machine}

/-! ## Steps outside the cascades -/

/-- A predicate survives the changes of the world that respect a relation. -/
def Follows (R : OracleStore → OracleStore → Prop) (P : Machine → Prop) : Prop :=
  ∀ e w, P e → Advanced R e.world w → P (e.setWorld w)

section World

variable (hP : Follows R P) (refl : ∀ s, R s s)

include hP refl

theorem keeps_onWorld {α : Type} {m : WorldM α} (hm : ∀ w₀, Keeps (Wrote R w₀) m) : Keeps P (onWorld m) := by
  intro e he
  have hstep : P (e.setWorld (m.after e.world)) := hP e _ he (hm e.world e.world ⟨⟨rfl, refl _⟩, rfl⟩).toAdvanced
  unfold onWorld
  rw [after_bind, result_get, after_get]
  dsimp only
  rw [after_bind, result_modify, after_modify]
  dsimp only
  split
  · exact hstep
  · exact hstep

/-- A change of the world outside the store and the tables. -/
theorem keeps_changeWorld {f : World → World}
    (h : ∀ w, (f w).tables = w.tables ∧ (f w).store = w.store) : Keeps P (changeWorld f) := by
  intro e he
  exact hP e (f e.world) he ⟨(h e.world).1, (h e.world).2.symm ▸ refl _⟩

end World

/-- A call of the store's on the oracle. -/
theorem returns_onStore {α : Type} {m : RuntimeM Instant Scalar α} {a : α} (h : m.result e.world.store = .ok a) :
    Returns (onWorld (onStore m)) e a fun e' => e' = e.setWorld { e.world with store := m.after e.world.store } := by
  have hok : (onStore m).result e.world = .ok a := by
    rw [onStore, result_bind, result_get, after_get]
    dsimp only
    rw [result_bind, result_modify, after_modify, h]
    rfl
  constructor
  · rw [onWorld, result_bind, result_get, after_get]
    dsimp only
    rw [result_bind, result_modify, after_modify, hok]
    rfl
  · rw [onWorld, after_bind, result_get, after_get]
    dsimp only
    rw [after_bind, result_modify, after_modify, hok, after_onStore]
    rfl

/-- A call of the store's that raises. -/
theorem raises_onStore {α : Type} {m : RuntimeM Instant Scalar α} {err : StoreError}
    (h : m.result e.world.store = .error err) :
    (onWorld (onStore m)).result e = .error (.store err) ∧
      (onWorld (onStore m)).after e = e.setWorld { e.world with store := m.after e.world.store } := by
  have hraise : (onStore m).result e.world = .error (.store err) := by
    rw [onStore, result_bind, result_get, after_get]
    dsimp only
    rw [result_bind, result_modify, after_modify, h]
    rfl
  constructor
  · rw [onWorld, result_bind, result_get, after_get]
    dsimp only
    rw [result_bind, result_modify, after_modify, hraise]
    rfl
  · rw [onWorld, after_bind, result_get, after_get]
    dsimp only
    rw [after_bind, result_modify, after_modify, hraise, after_onStore]
    rfl

theorem keeps_viewNow : Keeps P viewNow := fun _ h => h

/-- What an input's loops need of a predicate. -/
structure Conserved (R : OracleStore → OracleStore → Prop) (P : Machine → Prop) : Prop where
  respected : Respected .scan R
  commit : ∀ s, Keeps (R s) RuntimeState.commitInput
  world : Follows R P
  restored : ∀ e job x, P e → (e.world.store.jobs.get? job).isSome →
    e.executor.restore (.job job) JOB (rowConfiguration (e.world.view.row job))
      (.data (e.world.view.jobData job)) = .ok x → P (e.setExecutor x)
  root : ∀ key job event cause, Keeps P (dispatchRoot key job event cause)

section Conserved

variable (hP : Conserved R P)

include hP

theorem Conserved.keepsWorld {α : Type} {m : WorldM α} (hm : ∀ w₀, Keeps (Wrote R w₀) m) :
    Keeps P (onWorld m) := keeps_onWorld hP.world hP.respected.refl hm

theorem Conserved.keepsChange {f : World → World} (h : ∀ w, (f w).tables = w.tables ∧ (f w).store = w.store) :
    Keeps P (changeWorld f) := keeps_changeWorld hP.world hP.respected.refl h

theorem keeps_storeVerb (verb : Verb Instant Scalar) (h : writesAt .scan verb = true) :
    Keeps P (onWorld (onStore verb.call)) := hP.keepsWorld fun _ => keeps_verb hP.respected verb h

omit hP in
/-- A row asked for is there when the call returns. -/
theorem runtime_there {job : String} {row : JobRuntime Instant}
    (hok : (onWorld (onStore (RuntimeState.runtime job))).result e = .ok row) :
    (((onWorld (onStore (RuntimeState.runtime job))).after e).world.store.jobs.get? job).isSome := by
  cases hrow : (RuntimeState.runtime job).result e.world.store with
  | error err =>
    rw [(raises_onStore hrow).1] at hok
    cases hok
  | ok _ =>
    rw [(returns_onStore hrow).2]
    exact runtime_row hrow

theorem keeps_ensureRow (job : String) : Keeps P (ensureRow job) := by
  intro e he
  have hread : P ((onWorld (onStore (RuntimeState.runtime job))).after e) :=
    hP.keepsWorld (fun _ => keeps_answer hP.respected (.runtime job) rfl rfl) e he
  rw [ensureRow, after_bind, after_discard]
  cases hok : (onWorld (onStore (RuntimeState.runtime job))).result e with
  | error err =>
    rw [raises_discard hok]
    exact hread
  | ok row =>
    have hthere := runtime_there hok
    rw [result_discard hok]
    dsimp only
    rw [after_bind, result_get, after_get]
    dsimp only
    split
    · split
      · next x hx => exact hP.restored _ job x hread hthere hx
      · exact hread
    · exact hread

theorem keeps_root (job : String) (event : StateMachine.Event Payload) (cause : String) :
    Keeps P (root job event cause) := (keeps_ensureRow hP job).bind fun _ => hP.root _ _ _ _

theorem keeps_rootScan (job : String) (keepStopped : Bool) : Keeps P (rootScan job keepStopped) := hP.root _ _ _ _

/-! ## The dispatch of an event -/

theorem keeps_attemptRoot (job : String) (relay : Name) (cause : String) :
    Keeps P (attemptRoot job relay cause) := by
  refine keeps_viewNow.bind fun v => ?_
  split
  · exact keeps_pure _
  · exact keeps_root hP _ _ _

theorem keeps_attemptRoots (relay : Name) (cause : String) : ∀ jobs : List String,
    Keeps P (attemptRoots relay cause jobs)
  | [] => keeps_pure _
  | job :: jobs => (keeps_attemptRoot hP job relay cause).bind fun _ => keeps_attemptRoots relay cause jobs

theorem keeps_armDeadline (job : String) (check : SlaCheck) : Keeps P (armDeadline job check) := by
  refine keeps_viewNow.bind fun v => ?_
  split
  · exact keeps_throw _
  · exact keeps_pure _
  · exact hP.keepsWorld fun _ => keeps_scheduleTimer hP.respected _ _

theorem keeps_handleStart (ev : Event) (job : String) : Keeps P (handleStart ev job) := by
  have htail : ∀ relay, Keeps P (attemptRoot job relay (startCause ev)) :=
    fun relay => keeps_attemptRoot hP job relay _
  unfold handleStart
  dsimp only
  by_cases hk : ev.kind = .startJob
  · rw [if_pos hk]
    exact (keeps_armDeadline hP job .mustStart).bind fun _ =>
      (keeps_armDeadline hP job .mustComplete).bind fun _ => htail _
  · rw [if_neg hk]
    exact htail _

/-- A computation of the world that writes nothing of the store. -/
theorem keeps_raisingNow {α : Type} (x : Except OracleError α) : Keeps P (onWorld (raising x)) := by
  refine hP.keepsWorld fun w₀ => ?_
  cases x with
  | error e => exact keeps_throw _
  | ok a => exact keeps_pure _

theorem keeps_termRunTime (ev : Event) (job : String) : Keeps P (termRunTime ev job) :=
  (keeps_ensureRow hP job).bind fun _ => keeps_viewNow.bind fun _ => keeps_root hP _ _ _

theorem keeps_handleTimer (ev : Event) : Keeps P (handleTimer ev) := by
  unfold handleTimer
  split
  · refine (keeps_raisingNow hP _).bind fun job => ?_
    split
    · exact keeps_termRunTime hP _ _
    · exact (keeps_ensureRow hP job).bind fun _ => hP.keepsWorld fun _ => keeps_dispatchTimerCheck _ _ _
  · refine (keeps_raisingNow hP _).bind fun job => ?_
    split
    · exact keeps_handleStart hP _ _
    · refine keeps_viewNow.bind fun v => ?_
      split
      · exact keeps_handleStart hP _ _
      · exact keeps_root hP _ _ _

theorem keeps_handleJob (ev : Event) (payload : String → Payload) : Keeps P (handleJob ev payload) :=
  (keeps_raisingNow hP _).bind fun _ => keeps_root hP _ _ _

theorem keeps_handleGlobal (ev : Event) : Keeps P (handleGlobal ev) := by
  unfold handleGlobal
  split
  · exact keeps_throw _
  · next name _ =>
    exact (keeps_storeVerb hP (.setGlobal name _) rfl).bind fun _ => keeps_viewNow.bind fun _ =>
      keeps_attemptRoots hP _ _ _

theorem keeps_dispatch (ev : Event) : Keeps P (dispatch ev) := by
  have hstart : Keeps P (do
      let job ← onWorld (raising (requiredJob ev))
      handleStart ev job) := (keeps_raisingNow hP _).bind fun job => keeps_handleStart hP ev job
  unfold dispatch
  cases ev.kind with
  | status => exact keeps_viewNow.bind fun v => (keeps_raisingNow hP _).bind fun _ => keeps_root hP _ _ _
  | killJob => exact keeps_handleJob hP ev .armed
  | releaseResource => exact keeps_handleJob hP ev .bare
  | timer => exact keeps_handleTimer hP ev
  | onIce | offIce | onHold | offHold | onNoexec | offNoexec | disarm => exact keeps_handleJob hP ev _
  | startJob | forceStartJob => exact hstart
  | setGlobal => exact keeps_handleGlobal hP ev
  | mustStartAlarm | mustCompleteAlarm => exact keeps_throw _

/-! ## The input's scans and its queue -/

theorem keeps_payScan : Keeps P payScan := by
  refine keeps_get.bind fun e => ?_
  dsimp only
  split
  · exact keeps_rootScan hP _ _
  · exact keeps_pure _

theorem keeps_runOwedScan : ∀ fuel : Nat, Keeps P (runOwedScan fuel)
  | 0 => keeps_throw _
  | fuel + 1 => by
    refine keeps_get.bind fun e => ?_
    split
    · refine Keeps.bind (hP.keepsChange ?_) fun _ =>
        (keeps_payScan hP).bind fun _ => keeps_runOwedScan fuel
      exact fun _ => ⟨rfl, rfl⟩
    · exact keeps_pure _

theorem keeps_drainAll (fuel : Nat) : ∀ queue : List Event, Keeps P (drainAll fuel queue)
  | [] => keeps_pure _
  | ev :: rest => by
    refine Keeps.bind (hP.keepsChange ?_) fun _ =>
      (keeps_dispatch hP ev).bind fun _ => (keeps_runOwedScan hP fuel).bind fun _ => keeps_drainAll fuel rest
    exact fun _ => ⟨rfl, rfl⟩

theorem keeps_drain (fuel : Nat) : Keeps P (drain fuel) :=
  keeps_get.bind fun _ => keeps_drainAll hP fuel _

theorem keeps_enqueue_event (fuel : Nat) (ev : Event) : Keeps P (enqueue fuel ev) := by
  refine Keeps.bind (hP.keepsChange ?_) fun _ => keeps_drain hP fuel
  exact fun _ => ⟨rfl, rfl⟩

/-! ## The time half -/

theorem keeps_openings : ∀ jobs : List String, Keeps P (openings jobs)
  | [] => keeps_pure _
  | _ :: jobs => (keeps_root hP _ _ _).bind fun _ => keeps_openings jobs

theorem keeps_releaseRemovedHolders : Keeps P releaseRemovedHolders := by
  refine keeps_get.bind fun e => Keeps.bind (hP.keepsChange ?_) fun _ => (keeps_openings hP _).bind fun _ => ?_
  · exact fun _ => ⟨rfl, rfl⟩
  · split
    · exact keeps_pure _
    · exact keeps_rootScan hP _ _

theorem keeps_fireTimersDue (fuel : Nat) (at_ : Instant) : ∀ rounds : Nat,
    Keeps P (fireTimersDue fuel at_ rounds)
  | 0 => keeps_throw _
  | rounds + 1 => by
    have hpop : Keeps P (onWorld (onStore (RuntimeState.popTimerDue at_))) :=
      hP.keepsWorld fun _ => keeps_answer hP.respected (.popTimerDue at_) rfl rfl
    refine hpop.bind fun popped => ?_
    split
    · exact keeps_pure _
    · refine Keeps.bind (hP.keepsChange ?_) fun _ =>
        (keeps_enqueue_event hP fuel _).bind fun _ => keeps_fireTimersDue fuel at_ rounds
      exact fun _ => ⟨rfl, rfl⟩

theorem keeps_wakeAfterSwap : Keeps P wakeAfterSwap := by
  refine keeps_get.bind fun e => ?_
  split
  · refine Keeps.bind (hP.keepsChange ?_) fun _ => ?_
    · exact fun _ => ⟨rfl, rfl⟩
    · split
      · exact keeps_pure _
      · exact keeps_rootScan hP _ _
  · exact keeps_pure _

theorem keeps_timeHalf (fuel : Nat) (at_ : Instant) : Keeps P (timeHalf fuel at_) := by
  refine (keeps_releaseRemovedHolders hP).bind fun _ => (keeps_fireTimersDue hP fuel at_ fuel).bind fun _ =>
    Keeps.bind (hP.keepsChange ?_) fun _ => (keeps_wakeAfterSwap hP).bind fun _ => keeps_drain hP fuel
  exact fun _ => ⟨rfl, rfl⟩

theorem keeps_attemptHalves (fuel : Nat) (at_ : Instant) : ∀ evs : List Event,
    Keeps P (attemptHalves fuel at_ evs)
  | [] => keeps_pure _
  | ev :: evs => by
    have hhalf : Keeps P (attemptHalf fuel at_ ev) := by
      unfold attemptHalf
      split
      · exact (keeps_throw _).bind fun _ => keeps_enqueue_event hP fuel ev
      · exact keeps_enqueue_event hP fuel ev
    exact hhalf.bind fun _ => keeps_attemptHalves fuel at_ evs

/-! ## The transaction -/

theorem keeps_commit (start : Nat) : Keeps P (commit start) := by
  have hcommit : Keeps P (onWorld (onStore RuntimeState.commitInput)) :=
    hP.keepsWorld fun _ => keeps_onStore hP.commit
  exact hcommit.bind fun _ => keeps_get.bind fun _ => keeps_pure _

theorem keeps_committing {body : MachineM Unit} (hb : Keeps P body) (start : Nat) :
    Keeps P (committing body start) := by
  refine keeps_get_bind fun e he => ?_
  rw [after_bind, result_modify, after_modify]
  dsimp only
  split
  · exact keeps_commit hP start _ (hb e he)
  · refine (keeps_get_bind fun e' he' => ?_) _ (hb e he)
    rw [after_bind, result_modify, after_modify]
    dsimp only
    split
    · exact keeps_commit hP start e' he'
    · exact keeps_commit hP start e' he'

/-- **A conserved predicate survives every input, whether it returns or raises.** -/
theorem Conserved.input (fuel : Nat) (at_ : Instant) (evs : List Event) :
    Keeps P (Oracle.input fuel at_ evs) := by
  refine keeps_get.bind fun e => ?_
  have hbody : Keeps P (do timeHalf fuel at_; attemptHalves fuel at_ evs : MachineM Unit) :=
    (keeps_timeHalf hP fuel at_).bind fun _ => keeps_attemptHalves hP fuel at_ evs
  have hbegin : Keeps P (onWorld (onStore RuntimeState.beginInput)) :=
    keeps_storeVerb hP .beginInput rfl
  dsimp only
  split
  · exact (keeps_throw _).bind fun _ => hbegin.bind fun _ => keeps_committing hP hbody _
  · exact hbegin.bind fun _ => keeps_committing hP hbody _

end Conserved

/-! ## Root items -/

/-- A predicate that survives the turns of the executor. -/
structure Closed (R : OracleStore → OracleStore → Prop) (Q : Machine → Prop) : Prop where
  respected : Respected .scan R
  commit : ∀ s, Keeps (R s) RuntimeState.commitInput
  rebuild : ∀ s, Keeps (R s) RuntimeState.restoreInstances
  world : Follows R Q
  executor : ∀ e x, Q e → x.records.world = e.world → Q (e.setExecutor x)
  turn : ∀ e x, Q e → e.Charted → Round hook e.executor x → Q (e.turned x)

/-- The predicate, with the executor's own invariant. -/
def Charting (Q : Machine → Prop) (e : Machine) : Prop := e.Charted ∧ Q e

theorem setWorld_charted {e : Machine} {w : World} (h : e.Charted) (hc : w.catalog = e.world.catalog) :
    (e.setWorld w).Charted := by
  have hx : (e.setWorld w).executor.Prompt (Instanced e.world.catalog) := ⟨h.charts, h.deferring, h.items⟩
  unfold Machine.Charted
  rwa [show (e.setWorld w).world.catalog = e.world.catalog from hc]

section Closed

variable (hQ : Closed R Q)

include hQ

theorem Closed.follows : Follows R (Charting Q) := fun e w he hw =>
  ⟨setWorld_charted he.1 hw.catalog, hQ.world e w he.2 hw⟩

theorem Closed.keepsChange {f : World → World} (h : ∀ w, (f w).tables = w.tables ∧ (f w).store = w.store) :
    Keeps (Charting Q) (changeWorld f) := keeps_changeWorld hQ.follows hQ.respected.refl h

/-- The executor replaced by another over the same world. -/
theorem Closed.setExecutor {e : Machine} {x : Executor Key Payload World} (he : Charting Q e)
    (hw : x.records.world = e.world) (hx : x.Prompt (Instanced e.world.catalog)) : Charting Q (e.setExecutor x) := by
  refine ⟨?_, hQ.executor e x he.2 hw⟩
  unfold Machine.Charted
  rwa [show (e.setExecutor x).world.catalog = e.world.catalog from congrArg World.catalog hw]

theorem Closed.restored {e : Machine} {job : String} {x : Executor Key Payload World} (he : Charting Q e)
    (hx : e.executor.restore (.job job) JOB (rowConfiguration (e.world.view.row job))
      (.data (e.world.view.jobData job)) = .ok x) : Charting Q (e.setExecutor x) := by
  have hdata : Instanced e.world.catalog (.job job) JOB (.data (e.world.view.jobData job)) :=
    ⟨rfl, fun v hv => by rw [jobData_congr hv.symm]⟩
  obtain ⟨hprompt, hworld⟩ := he.1.restore hdata hx
  exact hQ.setExecutor he hworld hprompt

/-- A loop of turns. -/
theorem keeps_drive : ∀ fuel : Nat, Keeps (Charting Q) (drive fuel)
  | 0 => keeps_throw _
  | n + 1 => by
    refine keeps_get_bind fun e he => ?_
    split
    · exact he
    · exact he
    · next x o hturn =>
      obtain ⟨hcharted, hround⟩ := turn_charted he.1 hturn
      have hturned : Charting Q (e.turned x) := ⟨hcharted, hQ.turn e x he.2 he.1 hround⟩
      rw [after_bind, result_modify, after_modify]
      dsimp only
      split
      · exact hturned
      · exact keeps_drive n _ hturned

theorem keeps_checkReached : Keeps (Charting Q) checkReached := by
  refine keeps_get.bind fun e => Keeps.bind (hQ.keepsChange ?_) fun _ => ?_
  · exact fun _ => ⟨rfl, rfl⟩
  · split
    · exact keeps_throw _
    · exact keeps_pure _

omit hQ in
theorem keeps_checkScanIdle : Keeps P checkScanIdle := by
  refine keeps_get.bind fun e => ?_
  split
  · split
    · exact keeps_throw _
    · exact keeps_pure _
  · exact keeps_throw _

theorem keeps_runItem (key : Key) (event : StateMachine.Event Payload) :
    Keeps (Charting Q) (runItem key event) := by
  refine keeps_get_bind fun e he => ?_
  split
  · exact he
  · next x hx =>
    obtain ⟨hprompt, hrecords⟩ := he.1.post hx
    rw [after_bind, result_modify, after_modify]
    dsimp only
    refine ((keeps_drive hQ _).bind fun _ => (keeps_checkReached hQ).bind fun _ => keeps_checkScanIdle) _ ?_
    exact hQ.setExecutor he (congrArg (·.world) hrecords) hprompt

theorem keeps_recover : Keeps (Charting Q) recover := by
  have hrebuild : Keeps (Charting Q) (onWorld (onStore RuntimeState.restoreInstances)) :=
    keeps_onWorld hQ.follows hQ.respected.refl fun _ => keeps_onStore hQ.rebuild
  refine Keeps.bind (hQ.keepsChange ?_) fun _ => hrebuild.bind fun _ => ?_
  · exact fun _ => ⟨rfl, rfl⟩
  · exact fun e he => hQ.setExecutor he rfl (rebuilt_prompt e.world)

theorem keeps_recovering {m : MachineM Unit} (hm : Keeps (Charting Q) m) : Keeps (Charting Q) (recovering m) := by
  refine keeps_get_bind fun e he => ?_
  rw [after_bind, result_modify, after_modify]
  dsimp only
  split
  · exact hm e he
  · exact ((keeps_recover hQ).bind fun _ => keeps_throw _) _ (hm e he)

theorem keeps_dispatchRoot (key : Key) (job : String) (event : StateMachine.Event Payload) (cause : String) :
    Keeps (Charting Q) (dispatchRoot key job event cause) := by
  refine Keeps.bind (hQ.keepsChange ?_) fun _ =>
    (keeps_recovering hQ (keeps_runItem hQ key event)).bind fun _ => hQ.keepsChange ?_
  · exact fun _ => ⟨rfl, rfl⟩
  · exact fun _ => ⟨rfl, rfl⟩

/-- **What survives the turns is conserved.** -/
theorem Closed.conserved : Conserved R (Charting Q) where
  respected := hQ.respected
  commit := hQ.commit
  world := hQ.follows
  restored _ _ _ he _ hx := hQ.restored he hx
  root := keeps_dispatchRoot hQ

end Closed

end Dsl41.Oracle
