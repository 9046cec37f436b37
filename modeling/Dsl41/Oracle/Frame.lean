import Dsl41.Oracle.Turns
import Dsl41.Store.Writes

/-!
# What the hook writes

The hook writes the store through verbs of an input alone, and leaves the tables in force: a
relation of stores that such verbs respect (`Respected`) holds between the stores around it
(`perform_advances`), and around a turn (`turn_advances`).
-/

namespace Dsl41.Oracle

open Dsl41.Infra Dsl41.Infra.Effect Dsl41.Store
open Dsl41.StateMachine (Name Records Round)

abbrev OracleStore := RuntimeState Instant Scalar

/-! ## The relation -/

/-- The job whose chart a verb may move. The other verbs change nothing a chart reads of a row. -/
def movedJob : Verb Instant Scalar → Option String
  | .transition job .. | .moveFlag job _ | .seedJob job .. | .reserve job _ | .takeOverHeld job _
  | .releaseReservations job .. | .releaseHeld job => some job
  | _ => none

/-- A verb of an input, or the settlement of a run. The calls that move the owner's instances
themselves are not among them. -/
def inputVerb : Verb Instant Scalar → Bool
  | .releaseReservations .. => true
  | .moveInstance .. | .restoreInstances => false
  | verb => verb.ofInput

/-- A verb that an item of a key may write through. -/
def writesAt (key : Key) (verb : Verb Instant Scalar) : Bool :=
  inputVerb verb && (movedJob verb).all fun job => key = .job job

/-- A relation of stores that every write of an item of a key respects. -/
structure Respected (key : Key) (R : OracleStore → OracleStore → Prop) : Prop where
  refl : ∀ s, R s s
  trans : ∀ a b c, R a b → R b c → R a c
  verb : ∀ s (verb : Verb Instant Scalar), writesAt key verb = true → Keeps (R s) verb.call

/-- The tables in force. -/
def World.tables (w : World) : CatalogIR × SemanticSwitches × ClockReads × CapacityPool × Nat :=
  (w.catalog, w.semantics, w.clock, w.pool, w.cap)

/-- The tables are the same and the stores are related. -/
structure Advanced (R : OracleStore → OracleStore → Prop) (w w' : World) : Prop where
  tables : w'.tables = w.tables
  store : R w.store w'.store

variable {R : OracleStore → OracleStore → Prop} {key : Key} {w w' w₀ : World}

theorem Advanced.refl (hR : Respected key R) (w : World) : Advanced R w w := ⟨rfl, hR.refl _⟩

theorem Advanced.trans (hR : Respected key R) {w'' : World} (h : Advanced R w w') (h' : Advanced R w' w'') :
    Advanced R w w'' := ⟨h'.tables.trans h.tables, hR.trans _ _ _ h.store h'.store⟩

theorem Advanced.catalog (h : Advanced R w w') : w'.catalog = w.catalog := congrArg (·.1) h.tables

theorem World.Booked.advanced (hR : Respected key R) (h : w.Booked w') : Advanced R w w' := by
  obtain ⟨cascade, raised, rfl⟩ := h
  exact ⟨rfl, hR.refl _⟩

/-! ## Writes -/

/-- What a write leaves: the relation, and the marks of what was reached. -/
structure Wrote (R : OracleStore → OracleStore → Prop) (w w' : World) : Prop extends Advanced R w w' where
  reached : w'.reached = w.reached

theorem Wrote.refl (hR : Respected key R) (w : World) : Wrote R w w := ⟨.refl hR w, rfl⟩

/-- What a computation writes respects the relation from wherever it starts. -/
theorem keeps_advanced {α : Type} {m : WorldM α} (hR : Respected key R) (hm : ∀ w₀, Keeps (Wrote R w₀) m) :
    Keeps (Advanced R w₀) m := fun w hw => hw.trans hR (hm w w (.refl hR w)).toAdvanced

/-! ## Verbs on the world -/

/-- What a computation keeps it keeps when its answer is wanted. -/
theorem keeps_of_discard {α : Type} {m : RuntimeM Instant Scalar α} {P : OracleStore → Prop}
    (h : Keeps P (discard m)) : Keeps P m := by
  intro s hs
  have hafter := h s hs
  rwa [after_discard] at hafter

theorem after_onStore {α : Type} (m : RuntimeM Instant Scalar α) (w : World) :
    (onStore m).after w = { w with store := m.after w.store } := by
  rw [onStore, after_bind, result_get, after_get]
  dsimp only
  rw [after_bind, result_modify, after_modify]
  dsimp only
  split
  · rfl
  · rfl

theorem keeps_onStore {α : Type} {m : RuntimeM Instant Scalar α}
    (h : ∀ s, Keeps (R s) m) : Keeps (Wrote R w₀) (onStore m) := by
  intro w hw
  rw [after_onStore]
  exact ⟨⟨hw.tables, h _ _ hw.store⟩, hw.reached⟩

theorem keeps_verb (hR : Respected key R) (verb : Verb Instant Scalar) (h : writesAt key verb = true) :
    Keeps (Wrote R w₀) (onStore verb.call) := keeps_onStore fun s => hR.verb s verb h

/-- A verb whose answer is wanted. -/
theorem keeps_answer {α : Type} (hR : Respected key R) {m : RuntimeM Instant Scalar α} (verb : Verb Instant Scalar)
    (hm : verb.call = discard m) (h : writesAt key verb = true) : Keeps (Wrote R w₀) (onStore m) :=
  keeps_onStore fun s => keeps_of_discard (hm ▸ hR.verb s verb h)

/-- A change of neither the store nor the tables nor the marks of what was reached. -/
theorem keeps_aside {f : World → World}
    (h : ∀ w, (f w).tables = w.tables ∧ (f w).store = w.store ∧ (f w).reached = w.reached) :
    Keeps (Wrote R w₀) (modify f : WorldM _) :=
  keeps_modify fun w hw => ⟨⟨(h w).1.trans hw.tables, (h w).2.1.symm ▸ hw.store⟩, (h w).2.2.trans hw.reached⟩

theorem keeps_record (job transition cause : String) : Keeps (Wrote R w₀) (record job transition cause) := by
  refine keeps_get.bind fun w => ?_
  split
  · exact keeps_throw _
  · exact keeps_aside fun _ => ⟨rfl, rfl, rfl⟩

theorem keeps_emit (kind : EventKind) (payload : Dict String (Value Scalar)) :
    Keeps (Wrote R w₀) (emit kind payload) := by
  refine keeps_get.bind fun w => ?_
  split
  · exact keeps_throw _
  · exact keeps_aside fun _ => ⟨rfl, rfl, rfl⟩

theorem keeps_onCascade (f : Cascade → Cascade) : Keeps (Wrote R w₀) (onCascade f) :=
  keeps_aside fun _ => ⟨rfl, rfl, rfl⟩

/-! ## Timers -/

theorem keeps_enqueue (hR : Respected key R) (at_ : Instant) (ev : Event) :
    Keeps (Wrote R w₀) (discard (onStore (RuntimeState.enqueueTimer at_ ev))) :=
  (keeps_answer hR (.enqueueTimer at_ ev) rfl rfl).bind fun _ => keeps_pure _

theorem keeps_scheduleTimer (hR : Respected key R) (at_ : Instant) (ev : Event) :
    Keeps (Wrote R w₀) (scheduleTimer at_ ev) := by
  unfold scheduleTimer
  split
  · split
    · exact (keeps_throw _).bind fun _ => keeps_enqueue hR _ _
    · exact keeps_enqueue hR _ _
  · split
    · exact (keeps_throw _).bind fun _ => keeps_enqueue hR _ _
    · exact keeps_enqueue hR _ _

theorem keeps_deferStart (hR : Respected key R) (job : String) (nextOpen : Instant) (cause : String)
    (run : Option Int) (note : String) : Keeps (Wrote R w₀) (deferStart job nextOpen cause run note) := by
  refine keeps_get.bind fun w => ?_
  dsimp only
  split
  · exact keeps_pure _
  · exact (keeps_scheduleTimer hR _ _).bind fun _ => keeps_record _ _ _

theorem keeps_deferToNextOpening (hR : Respected key R) (job cause : String) :
    Keeps (Wrote R w₀) (deferToNextOpening job cause) := by
  refine keeps_get.bind fun w => ?_
  dsimp only
  split
  · exact keeps_pure _
  · split
    · exact keeps_pure _
    · split
      · exact keeps_throw _
      · exact keeps_deferStart hR _ _ _ _ _
      · exact keeps_deferStart hR _ _ _ _ _

theorem keeps_armTermRunTime (hR : Respected key R) (job : String) : Keeps (Wrote R w₀) (armTermRunTime job) := by
  refine keeps_get.bind fun w => ?_
  dsimp only
  split
  · split
    · exact keeps_pure _
    · exact keeps_scheduleTimer hR _ _
  · exact keeps_pure _

theorem keeps_dispatchTimerCheck (job check : String) (run : Option Int) :
    Keeps (Wrote R w₀) (dispatchTimerCheck job check run) := by
  refine keeps_get.bind fun w => ?_
  dsimp only
  split
  · split
    · exact (keeps_emit _ _).bind fun _ => keeps_record _ _ _
    · exact keeps_pure _
  · split
    · split
      · exact (keeps_emit _ _).bind fun _ => keeps_record _ _ _
      · exact keeps_pure _
    · exact keeps_pure _

/-! ## The writers -/

/-- A write through a verb is through one that an item of the key may write through. -/
def Write.isAt (key : Key) : Write → Bool
  | .verb call => writesAt key call
  | _ => true

/-- What a writer gives writes through verbs that an item of the key may write through. -/
def Within (key : Key) (x : Except OracleError Written) : Prop :=
  ∀ written, x = .ok written → written.writes.all (Write.isAt key) = true

theorem within_bind {α : Type} {x : Except OracleError α} {g : α → Except OracleError Written}
    (h : ∀ a, Within key (g a)) : Within key (x >>= g) := by
  intro written hw
  obtain ⟨a, -, ha⟩ := bind_eq_ok.mp hw
  exact h a written ha

@[simp] theorem within_map {x : Except OracleError Written} {g : Written → Written}
    (h : ∀ written, (g written).writes.all (Write.isAt key) = written.writes.all (Write.isAt key)) (hx : Within key x) :
    Within key (g <$> x) := by
  intro written hw
  obtain ⟨a, ha, rfl⟩ := map_eq_ok.mp hw
  exact (h a).trans (hx a ha)

@[simp] theorem within_writesOnly {writes : List Write} :
    Within key (writesOnly writes) ↔ writes.all (Write.isAt key) = true := by simp [Within, writesOnly]

@[simp] theorem within_entersWith {line : StatusLine} {writes : List Write} :
    Within key (entersWith line writes) ↔ writes.all (Write.isAt key) = true := by simp [Within, entersWith]

@[simp] theorem within_error {e : OracleError} : Within key (.error e) := nofun

@[simp] theorem within_misread {f : Firing} : Within key f.misread := nofun

@[simp] theorem all_flag {job : String} {target : FlagState} {marker cause : String} :
    (flag job target marker cause).all (Write.isAt (.job job)) = true := by
  simp [flag, moveFlag, Write.isAt, writesAt, movedJob, inputVerb, Verb.ofInput]

@[simp] theorem all_dropRank {v : View} {job : String} : (dropRank v job).all (Write.isAt key) = true := by
  unfold dropRank
  split
  · rfl
  · rfl

@[simp] theorem all_markResolved {v : View} {job : String} : (markResolved v job).all (Write.isAt key) = true := by
  unfold markResolved
  split
  · split
    · rfl
    · rfl
  · rfl

@[simp] theorem all_skipInBox {f : Firing} {a : StartFacts} : (skipInBox f a).all (Write.isAt key) = true := by
  unfold skipInBox
  cases f.box with
  | none => rfl
  | some box => rfl

@[simp] theorem all_codeWrites {v : View} {jobs : List String} : (codeWrites v jobs).all (Write.isAt key) = true := by
  simp [codeWrites, Write.isAt, writesAt, movedJob, inputVerb, Verb.ofInput]

theorem wStartIgnored_within (f : Firing) : Within (.job f.job) (wStartIgnored f) := by
  refine within_bind fun a => ?_
  split
  · intro written hw
    cases hw
    rfl
  · split
    · simp [Write.isAt]
    · simp [skipLine, Write.isAt]
    · simp

theorem wStarting_within (f : Firing) : Within (.job f.job) (wStarting f) := by
  unfold wStarting
  split
  · simp
  · simp

theorem wRunning_within (f : Firing) : Within (.job f.job) (wRunning f) := by
  unfold wRunning
  split
  · simp
  · simp

theorem wActualStart_within (f : Firing) : Within (.job f.job) (wActualStart f) := by
  unfold wActualStart
  split
  · next run ir _ _ =>
    cases run.arm with
    | true => simp [Write.isAt, writesAt, movedJob, inputVerb, Verb.ofInput]
    | false => simp [Write.isAt, writesAt, movedJob, inputVerb, Verb.ofInput]
  · simp
  · simp

theorem wLeaveLive_within (f : Firing) : Within (.job f.job) (wLeaveLive f) := by
  unfold wLeaveLive
  split
  · split
    · simp [Write.isAt, writesAt, movedJob, inputVerb]
    · simp
  · simp

theorem wSettle_within (f : Firing) : Within (.job f.job) (wSettle f) := by
  unfold wSettle
  split
  · dsimp only
    split
    · simp [Write.isAt]
    · simp [Write.isAt]
  · simp

theorem wLeft_within (f : Firing) : Within (.job f.job) (wLeft f) := by
  unfold wLeft
  split
  · cases f.box with
    | none => simp [dequeue, Write.isAt, writesAt, movedJob, inputVerb, Verb.ofInput]
    | some box => simp [dequeue, Write.isAt, writesAt, movedJob, inputVerb, Verb.ofInput]
  · simp

theorem wLeftArmed_within (f : Firing) : Within (.job f.job) (wLeftArmed f) := by
  intro written hw
  obtain ⟨left, hleft, hw⟩ := bind_eq_ok.mp hw
  cases hw
  simpa using wLeft_within f left hleft

theorem wOverride_within (f : Firing) : Within (.job f.job) (wOverride f) := by
  unfold wOverride
  split
  · simp
  · simp
  · simp

theorem wFold_within (f : Firing) : Within (.job f.job) (wFold f) := by
  unfold wFold
  split
  · simp
  · simp

theorem wBoxTerminator_within (f : Firing) : Within (.job f.job) (wBoxTerminator f) := by
  unfold wBoxTerminator
  split
  · simp
  · simp

theorem wRecompute_within (f : Firing) : Within (.job f.job) (wRecompute f) := by
  unfold wRecompute
  split
  · simp
  · simp

theorem wIceOff_within (f : Firing) : Within (.job f.job) (wIceOff f) := by
  unfold wIceOff
  split
  · simp [moveFlag, Write.isAt, writesAt, movedJob, inputVerb, Verb.ofInput]
  · simp [moveFlag, Write.isAt, writesAt, movedJob, inputVerb, Verb.ofInput]

theorem wFlagIgnored_within (f : Firing) : Within (.job f.job) (wFlagIgnored f) := by
  unfold wFlagIgnored
  split
  · simp [Write.isAt]
  · simp

theorem wResetInactive_within (f : Firing) : Within (.job f.job) (wResetInactive f) := by
  unfold wResetInactive
  split
  · simp [Write.isAt, writesAt, movedJob, inputVerb, Verb.ofInput]
  · simp

/-- **Every writer moves the chart of its own job alone.** -/
theorem writers_within : ∀ p ∈ WRITERS, ∀ f, Within (.job f.job) (p.2 f) := by
  simp only [WRITERS, List.forall_mem_cons, wStartIgnored_within, wStarting_within, wRunning_within,
    wActualStart_within, wLeaveLive_within, wSettle_within, wLeft_within, wLeftArmed_within,
    wOverride_within, wFold_within, wBoxTerminator_within, wRecompute_within, wIceOff_within,
    wFlagIgnored_within, wResetInactive_within, implies_true, true_and]
  simp [wNothing, wBounded, wBypass, wQueue, wSkip, wSkipMember, wSkipInactiveMember, wRefused, wArm,
    wForceIce, wForceHold,
    wReserve, wTakeOver, wOnHeld, wReleased, wReleaseIgnored, wOpening, wReadmit, wCancel, wKillWaiter,
    wIcedWaiter, wNoexecWaiter, wNoexecFailed, wNoexecBox, wKill, wKillIgnored, wTermRunTime,
    wJobTerminator, wInjected, wInjectedInactive, wReset, wCascaded, wAutoHold, wBoxDisarms,
    wBoxNoexecFlag, wBoxNoexecOff, wFlag, wNoexecHold, wIceOn, wHoldOn, wInterruptionHold, wHoldOff,
    wNoexecOn, wNoexecOff, wDisarm, within_bind, dequeue, moveFlag, skipLine, Write.isAt, writesAt, movedJob, inputVerb,
    Verb.ofInput]

/-! ## The hook -/

/-- What a pure step raises ends the computation. -/
theorem keeps_raising_bind {α β : Type} {x : Except OracleError α} {g : α → WorldM β} {P : World → Prop}
    (h : ∀ a, x = .ok a → Keeps P (g a)) : Keeps P (raising x >>= g) := by
  cases x with
  | error e => exact fun w hw => hw
  | ok a => exact h a rfl

theorem keeps_checkArm (job text : String) (arm : Bool) : Keeps (Wrote R w₀) (do
    if (← get).view.armed job ≠ arm then throw (.hook job text) : WorldM Unit) := by
  refine keeps_get.bind fun w => ?_
  split
  · exact keeps_throw _
  · exact keeps_pure _

theorem keeps_countItem : Keeps (Wrote R w₀) countItem := by
  refine Keeps.bind (keeps_aside ?_) fun _ => keeps_get.bind fun w => ?_
  · exact fun _ => ⟨rfl, rfl, rfl⟩
  · split
    · exact keeps_throw _
    · exact keeps_pure _

section Hook

theorem keeps_write (hR : Respected key R) {write : Write} (h : write.isAt key = true) :
    Keeps (Wrote R w₀) write.run := by
  cases write with
  | verb call => exact keeps_verb hR call h
  | record job transition cause => exact keeps_record _ _ _
  | deferStart job nextOpen cause => exact keeps_deferStart hR _ _ _ _ _
  | deferToOpening job cause => exact keeps_deferToNextOpening hR _ _
  | armTermRunTime job => exact keeps_armTermRunTime hR _
  | released move => exact keeps_onCascade _
  | unregister move => exact keeps_onCascade _

theorem keeps_runWrites (hR : Respected key R) : ∀ {writes : List Write}, writes.all (Write.isAt key) = true →
    Keeps (Wrote R w₀) (runWrites writes)
  | [], _ => keeps_pure _
  | write :: writes, h => by
    simp only [List.all_cons, Bool.and_eq_true] at h
    exact (keeps_write hR h.1).bind fun _ => keeps_runWrites hR h.2

section Rows

variable {job : String} (hR : Respected (.job job) R)

include hR

theorem keeps_writeStatus (new : JobStatus) (line : StatusLine) :
    Keeps (Wrote R w₀) (writeStatus job new line) := by
  refine keeps_get.bind fun w => ?_
  have hverb : writesAt (.job job) (.transition job new w.now line.code line.clear) = true := by
    simp [writesAt, movedJob, inputVerb, Verb.ofInput]
  refine (keeps_verb hR (.transition job new w.now line.code line.clear) hverb).bind fun _ => ?_
  refine (keeps_record _ _ _).bind fun _ => ?_
  dsimp only
  split
  · refine Keeps.bind (keeps_aside ?_) fun _ => keeps_emit _ _
    exact fun _ => ⟨rfl, rfl, rfl⟩
  · exact keeps_emit _ _

theorem keeps_writeStatuses : ∀ entered : List (JobStatus × StatusLine),
    Keeps (Wrote R w₀) (writeStatuses job entered)
  | [] => keeps_pure _
  | (status, line) :: rest => (keeps_writeStatus hR status line).bind fun _ => keeps_writeStatuses rest

theorem keeps_writeRow (out : Out) (active : Finset Name) (row : Name) :
    Keeps (Wrote R w₀) (writeRow job out active row) := by
  unfold writeRow
  split
  · exact keeps_throw _
  · next writer hwriter =>
    refine keeps_get.bind fun w => ?_
    dsimp only
    split
    · exact keeps_throw _
    · obtain ⟨l₁, l₂, hl, -⟩ := List.lookup_eq_some_iff.mp hwriter
      have hwithin := writers_within (row, writer) (by simp [hl]) { view := w.view, job, out, active }
      exact keeps_raising_bind fun written hw => (keeps_runWrites hR (hwithin written hw)).bind fun _ => keeps_pure _

theorem keeps_writeEach (out : Out) (active : Finset Name) : ∀ rows : List Name,
    Keeps (Wrote R w₀) (writeEach job out active rows)
  | [] => keeps_pure _
  | row :: rows => (keeps_writeRow hR out active row).bind fun _ =>
      (keeps_writeEach out active rows).bind fun _ => keeps_pure _

theorem keeps_writeRows (out : Out) (active : Finset Name) : Keeps (Wrote R w₀) (writeRows job out active) := by
  refine keeps_get.bind fun w => (keeps_writeEach hR out active _).bind fun lines => ?_
  dsimp only
  split
  · exact (keeps_throw _).bind fun _ => (keeps_writeStatuses hR _).bind fun _ => keeps_checkArm _ _ _
  · exact (keeps_writeStatuses hR _).bind fun _ => keeps_checkArm _ _ _

end Rows

section Intents

variable (hR : Respected key R)

include hR

/-- What a move does once the wait it leaves is closed. -/
theorem keeps_joined (w : World) (id : MoveId) (move : Move) : Keeps (Wrote R w₀) (match move.batch with
    | some batch => do
      runWrites (dropRank w.view move.job)
      onCascade (·.joinBatch batch id)
    | none =>
      if move.old.live && !(w.view.status move.job).live then onCascade (·.registerLate move.job id)
      else pure () : WorldM Unit) := by
  split
  · exact (keeps_runWrites hR all_dropRank).bind fun _ => keeps_onCascade _
  · split
    · exact keeps_onCascade _
    · exact keeps_pure _

theorem keeps_applyMove (id : MoveId) : Keeps (Wrote R w₀) (applyMove id) := by
  refine keeps_get.bind fun w => ?_
  dsimp only
  split
  · exact keeps_throw _
  · refine (keeps_onCascade _).bind fun _ => ?_
    split
    · exact (keeps_onCascade _).bind fun _ => keeps_joined hR w id _
    · exact keeps_joined hR w id _

theorem keeps_intent (i : Intent) : Keeps (Wrote R w₀) i.apply := by
  cases i with
  | entered status => exact keeps_pure _
  | move id => exact keeps_applyMove hR id
  | readmitted | clearReadmitted | scanState | openPass | closePass => exact keeps_onCascade _
  | register box run cause =>
    refine keeps_get.bind fun w => ?_
    split
    · exact keeps_throw _
    · exact keeps_onCascade _
  | settledEarly id =>
    refine keeps_get.bind fun w => ?_
    dsimp only
    split
    · exact keeps_throw _
    · exact (keeps_onCascade _).bind fun _ => keeps_runWrites hR all_dropRank
  | clearCodes jobs => exact keeps_get.bind fun w => keeps_runWrites hR all_codeWrites
  | deferToOpening job cause => exact keeps_deferToNextOpening hR _ _

theorem keeps_applyIntents : ∀ intents : List Payload, Keeps (Wrote R w₀) (applyIntents intents)
  | [] => keeps_pure _
  | payload :: rest => by
    have hrest := keeps_applyIntents rest
    cases payload with
    | intent i => exact (keeps_intent hR i).bind fun _ => hrest
    | _ => exact hrest

end Intents

/-- The reached jobs with one more. -/
def marked (job : String) (reached : List String) : List String := if job ∈ reached then reached else reached ++ [job]

theorem mem_marked {job x : String} {reached : List String} : x ∈ marked job reached ↔ x ∈ reached ∨ x = job := by
  unfold marked
  split
  · next h => exact ⟨Or.inl, fun hx => hx.elim id (· ▸ h)⟩
  · simp

/-- What an item of a job performs once the owner's instance is the executor's. -/
def performed (job : String) (out : Out) (active : Finset Name) : WorldM Unit := do
  countItem
  modify fun w => { w with reached := marked job w.reached }
  writeRows job out active
  applyIntents out.intents

theorem perform_job {job : String} {out : Out} {active : Finset Name} (h : out.key = .job job) :
    perform out active = mirror job active >>= fun _ => performed job out active := by
  unfold perform
  rw [h]
  rfl

theorem perform_scan {out : Out} {active : Finset Name} (h : out.key = .scan) :
    perform out active = countItem >>= fun _ => applyIntents out.intents := by
  unfold perform
  rw [h]

theorem performed_advances {job : String} (hR : Respected (.job job) R) (out : Out) (active : Finset Name) :
    Keeps (Advanced R w₀) (performed job out active) := by
  refine (keeps_advanced hR fun _ => keeps_countItem).bind fun _ => Keeps.bind (keeps_modify ?_) fun _ =>
    keeps_advanced hR fun _ => (keeps_writeRows hR out active).bind fun _ => keeps_applyIntents hR _
  exact fun w hw => ⟨hw.tables, hw.store⟩

/-- A relation that says nothing. -/
theorem respected_any (key : Key) : Respected key fun _ _ => True :=
  ⟨fun _ => trivial, fun _ _ _ _ _ => trivial, fun _ _ _ _ _ => trivial⟩

/-- What an item performs without a raise marks its job as reached, and no other. -/
theorem performed_reached {job : String} {out : Out} {active : Finset Name}
    (h : (performed job out active).result w = .ok ()) :
    ((performed job out active).after w).reached = marked job w.reached := by
  have hany := respected_any (.job job)
  obtain ⟨_, -, h, hafter⟩ := bind_result_ok h
  have hcount := (keeps_countItem (R := fun _ _ => True) w (.refl hany w)).reached
  obtain ⟨_, -, h, hafter'⟩ := bind_result_ok h
  rw [performed, hafter, hafter', after_modify]
  have hrest : Keeps (Wrote (fun _ _ => True) { countItem.after w with reached := marked job (countItem.after w).reached })
      (do
        writeRows job out active
        applyIntents out.intents) := (keeps_writeRows hany out active).bind fun _ => keeps_applyIntents hany _
  rw [(hrest _ (.refl hany _)).reached, hcount]

/-- **The hook's writes respect the relation.** -/
theorem perform_advances {out : Out} (hR : Respected out.key R)
    (hmirror : ∀ job, out.key = .job job → ∀ active s, Keeps (R s) (RuntimeState.moveInstance job active))
    (active : Finset Name) : Keeps (Advanced R w₀) (perform out active) := by
  cases hkey : out.key with
  | scan =>
    rw [perform_scan hkey]
    exact keeps_advanced hR fun _ => keeps_countItem.bind fun _ => keeps_applyIntents hR _
  | job job =>
    rw [perform_job hkey]
    exact (keeps_advanced hR fun _ => keeps_onStore fun s => hmirror job hkey active s).bind fun _ =>
      performed_advances (hkey ▸ hR) out active

theorem hook_advances {out : Out} (hR : Respected out.key R)
    (hmirror : ∀ job, out.key = .job job → ∀ active s, Keeps (R s) (RuntimeState.moveInstance job active))
    (r : Records Key Payload World) : Advanced R r.world (hook out r) := by
  unfold hook
  split
  · exact .refl hR _
  · have h : Advanced R r.world _ :=
      perform_advances hR hmirror (((r.instances out.key).map (·.active)).getD ∅) r.world (.refl hR _)
    unfold World.afterHook
    split
    · exact h
    · exact ⟨h.tables, h.store⟩

/-- **A round of the executor respects the relation.** -/
theorem round_advances (hR : ∀ key, Respected key R)
    (hmirror : ∀ job active s, Keeps (R s) (RuntimeState.moveInstance job active))
    {e : Machine} {x : StateMachine.Executor Key Payload World} (he : e.Charted)
    (h : Round hook e.executor x) : Advanced R e.world x.records.world := by
  refine h.relates (.refl (hR .scan)) (fun _ _ _ => .trans (hR .scan)) (fun key inst hi name act ha ctx w => ?_)
    fun out r => hook_advances (hR out.key) (fun job _ => hmirror job) r
  exact (((he.charts key inst hi).1.neat name act ha ctx w).1).advanced (hR .scan)

/-- **A turn keeps the executor charted, and the tables.** -/
theorem turn_charted {e : Machine} {x : StateMachine.Executor Key Payload World} {o : Option Out} (he : e.Charted)
    (h : e.executor.turn hook = .ok (some (x, o))) : (e.turned x).Charted ∧ Round hook e.executor x := by
  obtain ⟨hx, hround⟩ := StateMachine.Executor.Prompt.turn (fun _ _ _ => Instanced.prompt _ _ _) he h
  have hw := round_advances respected_any (fun _ _ _ _ _ => trivial) he hround
  refine ⟨?_, hround⟩
  unfold Machine.Charted
  rw [show (e.turned x).world.catalog = e.world.catalog from hw.catalog]
  exact hx

end Hook

end Dsl41.Oracle
