import Dsl41.Oracle.Runs
import Dsl41.Store.Removal

/-!
# The runs an oracle starts

A run of a job starts in the microstep that takes its actual start. That microstep moves the run
number of the job's name on (`turn_rises`), and no step of an input moves it back, so no two runs
of a job have one number (`Numbered`).
-/

namespace Dsl41.Oracle

open Dsl41.Infra Dsl41.Infra.Effect Dsl41.Store
open Dsl41.StateMachine (Name Records Round)

variable {w w' : World} {job : String}

/-! ## The relation -/

/-- **The stores of an input go onward.** -/
theorem onward_respected (key : Key) : Respected key Onward where
  refl := .refl
  trans _ _ _ h h' := h.trans h'
  verb s verb hv := by
    have hinput : inputVerb verb = true := (Bool.and_eq_true _ _ ▸ hv).1
    unfold inputVerb at hinput
    split at hinput
    · exact keeps_release_onward
    · cases hinput
    · cases hinput
    · exact Verb.keeps_onward hinput

/-- The owner's instances move apart from the rows. -/
theorem onward_mirror (job : String) (active : Finset Name) (s : OracleStore) :
    Keeps (Onward s) (RuntimeState.moveInstance job active) :=
  Verb.keeps_onward (v := .moveInstance job active) rfl

/-- The run number of a name has moved on, and the name has no tombstone. -/
def Rises (job : String) (s s' : OracleStore) : Prop :=
  (s.last job).runNumber < (s'.last job).runNumber ∧ s'.tombstones.get? job = none

theorem Rises.onward {s s₁ s' : OracleStore} (h : Rises job s s₁) (h' : Onward s₁ s') : Rises job s s' :=
  ⟨h.1.trans_le (h'.ahead job).1, h'.tombstones ▸ h.2⟩

theorem Rises.after {s s₁ s' : OracleStore} (h : Onward s s₁) (h' : Rises job s₁ s') : Rises job s s' :=
  ⟨(h.ahead job).1.trans_lt h'.1, h'.2⟩

/-- What keeps the relation, from where it starts. -/
theorem advanced_after {α : Type} {m : WorldM α} (hm : ∀ w₀, Keeps (Wrote Onward w₀) m) (w : World) :
    Onward w.store (m.after w).store := (hm w w (.refl (onward_respected .scan) w)).store

/-! ## The start's writes -/

theorem result_onStore {α : Type} {m : RuntimeM Instant Scalar α} {a : α} (h : (onStore m).result w = .ok a) :
    m.result w.store = .ok a := by
  rw [onStore, result_bind, result_get, after_get] at h
  dsimp only at h
  rw [result_bind, result_modify, after_modify] at h
  dsimp only at h
  split at h
  · next hm =>
    cases h
    exact hm
  · cases h

/-- The start's verb on the world. -/
theorem start_rises {cause : String} {box : Option String} {isBox : Bool}
    (h : (onStore (RuntimeState.startRun job cause box isBox)).result w = .ok ()) :
    Rises job w.store ((onStore (RuntimeState.startRun job cause box isBox)).after w).store := by
  have hok := result_onStore h
  have hkeeps := Verb.keeps_onward (s := w.store) (v := .startRun job cause box isBox) rfl w.store (.refl _)
  rw [after_onStore]
  exact ⟨startRun_rises hok, (congrArg (·.get? job) hkeeps.tombstones).trans (startRun_untombed hok)⟩

/-- A later step that goes onward loses nothing of the rise. -/
theorem rises_bind {α β : Type} {m : WorldM α} {g : α → WorldM β} {b : β} (h : (m >>= g).result w = .ok b)
    (hm : ∀ a, m.result w = .ok a → Rises job w.store (m.after w).store)
    (hg : ∀ a w₀, Keeps (Wrote Onward w₀) (g a)) : Rises job w.store ((m >>= g).after w).store := by
  obtain ⟨a, ha, -, hafter⟩ := bind_result_ok h
  rw [hafter]
  exact (hm a ha).onward (advanced_after (hg a) _)

/-- An earlier step that goes onward spoils nothing of the rise. -/
theorem bind_rises {α β : Type} {m : WorldM α} {g : α → WorldM β} {b : β} (h : (m >>= g).result w = .ok b)
    (hm : ∀ w₀, Keeps (Wrote Onward w₀) m)
    (hg : ∀ a, m.result w = .ok a → (g a).result (m.after w) = .ok b →
      Rises job (m.after w).store ((g a).after (m.after w)).store) :
    Rises job w.store ((m >>= g).after w).store := by
  obtain ⟨a, ha, hb, hafter⟩ := bind_result_ok h
  rw [hafter]
  exact .after (advanced_after hm w) (hg a ha hb)

/-- The writes of a start move the number on. -/
theorem runWrites_rises {cause : String} {box : Option String} {isBox : Bool} {writes : List Write}
    (hall : writes.all (Write.isAt (.job job)) = true) (hmem : .verb (.startRun job cause box isBox) ∈ writes)
    (h : (runWrites writes).result w = .ok ()) : Rises job w.store ((runWrites writes).after w).store := by
  induction writes generalizing w with
  | nil => cases hmem
  | cons write writes ih =>
    obtain ⟨hfirst, hrest⟩ : write.isAt (.job job) = true ∧ writes.all (Write.isAt (.job job)) = true := by simpa using hall
    rcases List.mem_cons.mp hmem with rfl | hmem
    · exact rises_bind h (fun _ hok => start_rises hok) fun _ _ => keeps_runWrites (onward_respected _) hrest
    · exact bind_rises h (fun _ => keeps_write (onward_respected _) hfirst) fun _ _ hok => ih hrest hmem hok

/-- What the start's writer gives starts a run. -/
theorem wActualStart_starts {f : Firing} {written : Written} (h : wActualStart f = .ok written) :
    ∃ cause box isBox, .verb (.startRun f.job cause box isBox) ∈ written.writes := by
  unfold wActualStart at h
  split at h
  · cases h
    exact ⟨_, _, _, List.mem_append_right _ (List.mem_singleton_self _)⟩
  · cases h
  · cases h

/-- The start's row moves the number on. -/
theorem writeRow_rises {out : Out} {active : Finset Name} {row : Name} {line : Option StatusLine}
    (hrow : List.lookup row WRITERS = some wActualStart) (h : (writeRow job out active row).result w = .ok line) :
    Rises job w.store ((writeRow job out active row).after w).store := by
  have hwithin := writers_within (row, wActualStart) (by
    obtain ⟨l₁, l₂, hl, -⟩ := List.lookup_eq_some_iff.mp hrow
    simp [hl])
  unfold writeRow at h ⊢
  rw [hrow] at h ⊢
  rw [result_bind, result_get, after_get] at h
  rw [after_bind, result_get, after_get]
  dsimp only at h ⊢
  split at h
  · cases h
  · cases hw : wActualStart { view := w.view, job, out, active } with
    | error e =>
      rw [hw] at h
      cases h
    | ok written =>
      rw [hw, raising, pure_bind] at h
      rw [raising, pure_bind]
      obtain ⟨cause, box, isBox, hmem⟩ := wActualStart_starts hw
      exact rises_bind h (fun _ hok => runWrites_rises (hwithin _ _ hw) hmem hok) fun _ _ => keeps_pure _

/-- The fired rows' writes move the number on when the start's row is among them. -/
theorem writeEach_rises {out : Out} {active : Finset Name} {row : Name}
    (hrow : List.lookup row WRITERS = some wActualStart) {rows : List Name} {lines : List StatusLine}
    (hmem : row ∈ rows) (h : (writeEach job out active rows).result w = .ok lines) :
    Rises job w.store ((writeEach job out active rows).after w).store := by
  induction rows generalizing w lines with
  | nil => cases hmem
  | cons first rows ih =>
    rcases List.mem_cons.mp hmem with rfl | hmem
    · refine rises_bind h (fun _ hok => writeRow_rises hrow hok) fun _ _ => ?_
      exact (keeps_writeEach (onward_respected _) _ _ _).bind fun _ => keeps_pure _
    · refine bind_rises h (fun _ => keeps_writeRow (onward_respected _) _ _ _) fun _ _ hok => ?_
      exact rises_bind hok (fun _ hok' => ih hmem hok') fun _ _ => keeps_pure _

theorem mem_rowOrder {rows : List Name} {row : Name} (h : row ∈ rows) : row ∈ rowOrder rows := by
  unfold rowOrder
  split
  · by_cases hn : row ∈ noexecHolds
    · exact List.mem_append_right _ (List.mem_filter.mpr ⟨h, by simpa using hn⟩)
    · exact List.mem_append_left _ (List.mem_filter.mpr ⟨h, by simpa using hn⟩)
  · exact h

theorem writeRows_rises {out : Out} {active : Finset Name} {row : Name}
    (hrow : List.lookup row WRITERS = some wActualStart) (hmem : row ∈ out.rows)
    (h : (writeRows job out active).result w = .ok ()) :
    Rises job w.store ((writeRows job out active).after w).store := by
  unfold writeRows at h ⊢
  refine bind_rises h (fun _ => keeps_get) fun w₁ hw₁ h => ?_
  refine rises_bind h (fun _ hok => writeEach_rises hrow (mem_rowOrder hmem) hok) fun lines w₀ => ?_
  have hstatuses : Keeps (Wrote Onward w₀) (do
      writeStatuses job ((enteredOf out.intents).zip lines)
      if (← get).view.armed job ≠ declaredArm out.rows (w₁.view.armed job) then
        throw (.hook job (out.event.name ++ " left an arm its rows do not declare (DL-365)"))) :=
    (keeps_writeStatuses (onward_respected _) _).bind fun _ => keeps_checkArm _ _ _
  dsimp only
  split
  · exact (keeps_throw _).bind fun _ => hstatuses
  · exact hstatuses

/-! ## The start's microstep -/

/-- **A performed start moves its name's number on.** -/
theorem perform_rises {out : Out} {active : Finset Name} {row : Name} (hkey : out.key = .job job)
    (hrow : List.lookup row WRITERS = some wActualStart) (hmem : row ∈ out.rows)
    (h : (perform out active).result w = .ok ()) : Rises job w.store ((perform out active).after w).store := by
  rw [perform_job hkey] at h ⊢
  refine bind_rises h (fun _ => keeps_onStore (onward_mirror job active)) fun _ _ h => ?_
  refine bind_rises h (fun _ => keeps_countItem) fun _ _ h => ?_
  -- the mark of the job is no write of the store
  obtain ⟨_, -, h, hafter⟩ := bind_result_ok h
  rw [hafter, after_modify]
  rw [after_modify] at h
  have hrise := rises_bind h (fun _ hok => writeRows_rises hrow hmem hok) fun _ _ =>
    keeps_applyIntents (onward_respected (.job job)) _
  exact hrise

theorem raise_ne_none (w : World) (e : OracleError) : (w.raise e).raised ≠ none := by
  unfold World.raise
  cases w.raised <;> simp

/-- What the hook leaves without a raise it performed. -/
theorem hook_performed {out : Out} {r : Records Key Payload World} (h : (hook out r).raised = none) :
    let active := ((r.instances out.key).map (·.active)).getD ∅
    (perform out active).result r.world = .ok () ∧ hook out r = (perform out active).after r.world := by
  unfold hook at h ⊢
  by_cases hraised : r.world.raised.isSome
  · rw [if_pos hraised] at h
    rw [h] at hraised
    cases hraised
  · rw [if_neg hraised] at h ⊢
    unfold World.afterHook at h ⊢
    cases hok : (perform out (((r.instances out.key).map (·.active)).getD ∅)).result r.world with
    | ok a => exact ⟨hok, rfl⟩
    | error e =>
      rw [hok] at h
      exact absurd h (raise_ne_none _ _)

theorem hook_rises {out : Out} {r : Records Key Payload World} {row : Name} (hkey : out.key = .job job)
    (hrow : List.lookup row WRITERS = some wActualStart) (hmem : row ∈ out.rows)
    (h : (hook out r).raised = none) : Rises job r.world.store (hook out r).store := by
  obtain ⟨hok, hhook⟩ := hook_performed h
  rw [hhook]
  exact perform_rises hkey hrow hmem hok

/-- The rows of an actual start. -/
theorem start_rows : ∀ row ∈ JOB.rows, row.event = ACTUAL_START → List.lookup row.id WRITERS = some wActualStart := by
  have h : JOB_ROWS.all (fun row => row.event ≠ ACTUAL_START || row.id = "job.430" || row.id = "job.431") = true := by
    decide
  intro row hrow hevent
  have hid := List.all_eq_true.mp h row hrow
  simp only [hevent, ne_eq, not_true_eq_false, decide_false, Bool.false_or, Bool.or_eq_true, decide_eq_true_eq] at hid
  rcases hid with hid | hid
  · rw [hid]
    rfl
  · rw [hid]
    rfl

/-- A microstep that started a run of a job: it took the job's actual start, and nothing raised. -/
def Taken.Starts (t : Taken) (job : String) : Prop :=
  t.item.key = .job job ∧ t.item.event.name = ACTUAL_START ∧ t.after.raised = none

/-- The number of the run it started. -/
def Taken.number (t : Taken) (job : String) : Int := (t.after.store.row job).runNumber

/-- **The round that takes an actual start moves its job's number on.** -/
theorem turn_rises {e : Machine} {x : StateMachine.Executor Key Payload World} (he : e.Charted)
    (h : Round hook e.executor x) {item : StateMachine.Item Key Payload}
    (hitem : e.executor.worklist.head? = some item) (hkey : item.key = .job job)
    (hevent : item.event.name = ACTUAL_START) (hraised : x.records.world.raised = none) :
    Rises job e.world.store x.records.world.store := by
  cases h with
  | pooled hw hp =>
    rw [hw] at hitem
    cases hitem
  | @gone first rest inst hw hi hk hg =>
    -- a completion is under the completion's event, not the start's
    rw [hw] at hitem
    cases hitem
    rcases he.items item (by simp [hw]) with hplain | ⟨-, hplain⟩
    · rw [hplain] at hk
      cases hk
    · rw [hplain] at hevent
      exact absurd hevent (by decide)
  | @fired first rest inst inst' r out q rows cs left entered sends hw hi ha hf =>
    rw [hw] at hitem
    cases hitem
    obtain ⟨row, hrow⟩ := List.exists_mem_of_ne_nil rows ha.some
    obtain ⟨hmem, hname, -⟩ := ha.row row hrow
    have hchart : inst.chart = JOB := by
      have hinst := (he.charts item.key inst hi).1
      rw [hkey] at hinst
      exact hinst.1
    rw [hchart] at hmem
    have hids : row.id ∈ out.rows := hf.ids ▸ List.mem_map_of_mem hrow
    have hbefore : Advanced Onward e.world r.world := hf.calls.relates (.refl (onward_respected .scan))
      (fun _ _ _ => .trans (onward_respected .scan)) fun name act hact ctx w =>
        ((((he.charts item.key inst hi).1.neat name act hact ctx w).1).advanced (onward_respected .scan))
    exact .after hbefore.store
      (hook_rises (hf.key.trans hkey) (start_rows row hmem (hname.trans hevent)) hids hraised)

/-! ## The numbers of a run -/

/-- What the microsteps so far say of the numbers, since a store. -/
structure Numbered (s₀ : OracleStore) (e : Machine) : Prop where
  now : Ahead s₀ e.world.store
  since : ∀ t ∈ e.taken, Ahead s₀ t.before.store
  behind : ∀ t ∈ e.taken, Ahead t.after.store e.world.store
  rises : ∀ t ∈ e.taken, ∀ job, t.Starts job → Rises job t.before.store t.after.store
  order : e.taken.Pairwise fun t t' => Ahead t.after.store t'.before.store

/-- Before the first microstep. -/
theorem Numbered.begin {e : Machine} (h : e.taken = []) : Numbered e.world.store e where
  now := .refl _
  since := by simp [h]
  behind := by simp [h]
  rises := by simp [h]
  order := by simp [h]

theorem Numbered.ahead {s₀ : OracleStore} {e e' : Machine} (h : Numbered s₀ e) (htaken : e'.taken = e.taken)
    (hstore : Ahead e.world.store e'.world.store) : Numbered s₀ e' where
  now := h.now.trans hstore
  since := htaken ▸ h.since
  behind t ht := (h.behind t (htaken ▸ ht)).trans hstore
  rises := htaken ▸ h.rises
  order := htaken ▸ h.order

/-- One more microstep. -/
theorem Numbered.take {s₀ : OracleStore} {e : Machine} {x : StateMachine.Executor Key Payload World}
    (h : Numbered s₀ e) (he : e.Charted) (hround : Round hook e.executor x)
    (hstore : Ahead e.world.store x.records.world.store) : Numbered s₀ (e.turned x) := by
  cases hhead : e.executor.worklist.head? with
  | none =>
    have htaken : (e.turned x).taken = e.taken := by simp [Machine.turned, hhead]
    exact h.ahead htaken hstore
  | some item =>
    have htaken : (e.turned x).taken = e.taken ++ [{ item, before := e.world, after := x.records.world }] := by
      simp [Machine.turned, hhead]
    have hworld : (e.turned x).world = x.records.world := rfl
    refine ⟨h.now.trans hstore, ?_, ?_, ?_, ?_⟩
    · simpa [htaken, or_imp, forall_and] using ⟨h.since, h.now⟩
    · simpa [htaken, or_imp, forall_and, hworld] using ⟨fun t ht => (h.behind t ht).trans hstore, .refl _⟩
    · rw [htaken]
      simp only [List.mem_append, List.mem_singleton, or_imp, forall_and, forall_eq]
      exact ⟨h.rises, fun job hs => turn_rises he hround hhead hs.1 hs.2.1 hs.2.2⟩
    · rw [htaken, List.pairwise_append]
      exact ⟨h.order, List.pairwise_singleton _ _, by simpa using h.behind⟩

/-- **No step of an input gives a number twice.** -/
theorem numbered_closed (s₀ : OracleStore) : Closed Onward (Numbered s₀) where
  respected := onward_respected .scan
  commit _ := keeps_commit_onward
  rebuild _ := Verb.keeps_onward (v := .restoreInstances) rfl
  world _ _ h hw := h.ahead rfl hw.store.ahead
  executor e x h hx := h.ahead rfl (by
    rw [show (e.setExecutor x).world = e.world from hx]
    exact .refl _)
  turn _ _ h he hround := h.take he hround (round_advances onward_respected onward_mirror he hround).store.ahead

/-- **Two runs of a job have two numbers, and a later run the greater.** -/
theorem Numbered.increasing {s₀ : OracleStore} {e : Machine} (h : Numbered s₀ e) :
    e.taken.Pairwise fun t t' => ∀ job, t.Starts job → t'.Starts job → t.number job < t'.number job := by
  refine h.order.imp_of_mem fun ht ht' hahead job hs hs' => ?_
  have hrise := h.rises _ ht job hs
  have hrise' := h.rises _ ht' job hs'
  unfold Taken.number
  rw [← last_eq_row hrise.2, ← last_eq_row hrise'.2]
  exact (hahead job).1.trans_lt hrise'.1

/-- A run's number is above every number its job had before. -/
theorem Numbered.above {s₀ : OracleStore} {e : Machine} (h : Numbered s₀ e) {t : Taken} (ht : t ∈ e.taken)
    (hs : t.Starts job) : (s₀.last job).runNumber < t.number job := by
  have hrise := h.rises t ht job hs
  unfold Taken.number
  rw [← last_eq_row hrise.2]
  exact (h.since t ht job).1.trans_lt hrise.1

end Dsl41.Oracle
