import Dsl41.Store.Identity

/-!
# Removals and additions

An update removes jobs and adds jobs between inputs. A removal hands a name's run number and its
revision to the tombstone (`retireJob_spec`), and an addition takes both up again
(`admitJob_spec`): `Retired` and `Joined` say what a list of each leaves.
-/

namespace Dsl41.Store

open Dsl41.Infra Dsl41.Infra.Effect
open RuntimeState

variable {τ ω : Type} [LinearOrder τ] {s s' : RuntimeState τ ω} {job : String}

/-! ## What each leaves -/

/-- The row a removal leaves as a tombstone: the old row without units and without rank. -/
structure Buried (row tombstone : JobRuntime τ) : Prop where
  run : tombstone.runNumber = row.runNumber
  rev : tombstone.stateRev = row.stateRev
  units : tombstone.reservations = []
  rank : tombstone.waiterSeq = none

/-- What a removal leaves of everything but the spent units. -/
structure Retired (s s' : RuntimeState τ ω) (gone : List String) : Prop where
  kept : ∀ x, x ∉ gone → s'.jobs.get? x = s.jobs.get? x ∧ s'.tombstones.get? x = s.tombstones.get? x
  buried : ∀ x ∈ gone, s'.jobs.get? x = none ∧
    ∃ row tombstone, s.jobs.get? x = some row ∧ s'.tombstones.get? x = some tombstone ∧ Buried row tombstone
  timers : s'.timers = s.timers.keep fun t => t.event.job.all (· ∉ gone)
  phase : s'.phase = s.phase
  gives : s'.jobInstance = s.jobInstance

theorem Timers.keep_true (q : Timers τ ω) : q.keep (fun _ => true) = q := by
  unfold Timers.keep
  congr 1
  exact List.filter_true q.entries

theorem Timers.keep_keep (q : Timers τ ω) (p p' : Timer τ ω → Bool) :
    (q.keep p).keep p' = q.keep fun t => p t && p' t := by
  unfold Timers.keep
  congr 1
  simp [List.filter_filter, Bool.and_comm]

/-- A read of a row that is there. -/
theorem runtime_closed {row : JobRuntime τ} (hrow : s.jobs.get? job = some row) (ht : s.tombstones.get? job = none) :
    (runtime job).result s = .ok row ∧ (runtime job).after s = s := by
  constructor
  · rw [runtime, result_bind, result_get, after_get]
    simp [ht, hrow]
  · rw [runtime, after_bind, result_get, after_get]
    simp [ht, hrow]

/-- A write between inputs of a row that is there. -/
theorem replace_closed {f : JobRuntime τ → JobRuntime τ} {row : JobRuntime τ} (hs : ¬ s.phase.isOpen)
    (hrow : s.jobs.get? job = some row) (ht : s.tombstones.get? job = none) :
    (replace job f).result s = .ok () ∧ (replace job f).after s = { s with jobs := s.jobs.set job (f row) } := by
  have htouch : (touch (.job job)).after s = s := by
    rw [touch, after_modify, if_neg fun h => hs h.1]
  have hread := runtime_closed hrow ht
  constructor
  · rw [replace, result_bind, show (touch (.job job)).result s = .ok () from rfl, htouch]
    dsimp only
    rw [result_bind, hread.1]
    rfl
  · rw [replace, after_bind, show (touch (.job job)).result s = .ok () from rfl, htouch]
    dsimp only
    rw [after_bind, hread.1, hread.2]
    rfl

/-- What a settlement between inputs leaves. -/
structure Settled (s s' : RuntimeState τ ω) (job : String) (row : JobRuntime τ) : Prop where
  own : ∃ row', s'.jobs.get? job = some row' ∧ row'.runNumber = row.runNumber ∧ row'.stateRev = row.stateRev
  other : ∀ x ≠ job, s'.jobs.get? x = s.jobs.get? x
  tombstones : s'.tombstones = s.tombstones
  timers : s'.timers = s.timers
  phase : s'.phase = s.phase
  gives : s'.jobInstance = s.jobInstance

theorem settleLive_spec {row : JobRuntime τ} (keepsHeld : Option (String → Bool)) (hs : ¬ s.phase.isOpen)
    (hrow : s.jobs.get? job = some row) (ht : s.tombstones.get? job = none) :
    (settleLive job row keepsHeld).result s = .ok () ∧ Settled s ((settleLive job row keepsHeld).after s) job row := by
  have hsame : Settled s s job row := ⟨⟨row, hrow, rfl, rfl⟩, fun _ _ => rfl, rfl, rfl, rfl, rfl⟩
  obtain ⟨hread, hstay⟩ := runtime_closed hrow ht
  unfold settleLive
  split
  · rw [releaseReservations, result_bind, after_bind, hread, hstay]
    dsimp only
    split
    · obtain ⟨hwrite, hafter⟩ := replace_closed (f := fun r => { r with reservations :=
        (unreleased (JobStatus.terminated = .success) keepsHeld row.reservations).1 }) hs hrow ht
      rw [result_bind, after_bind, hwrite, hafter]
      refine ⟨rfl, ⟨_, Dict.get?_set_self, rfl, rfl⟩, fun x hx => ?_, rfl, rfl, rfl, rfl⟩
      exact Dict.get?_set_ne hx
    · exact ⟨rfl, hsame⟩
  · exact ⟨rfl, hsame⟩

/-- **A removal between inputs of a row that is there.** -/
theorem retireJob_spec {row : JobRuntime τ} (keepsHeld : Option (String → Bool)) (hs : ¬ s.phase.isOpen)
    (hrow : s.jobs.get? job = some row) (ht : s.tombstones.get? job = none) :
    (∃ tombstone, (retireJob job keepsHeld).result s = .ok tombstone) ∧
      Retired s ((retireJob job keepsHeld).after s) [job] := by
  have hguard : (requireBetweenInputs "retire_job" job).result s = .ok () ∧
      (requireBetweenInputs "retire_job" job).after s = s := by
    constructor
    · rw [requireBetweenInputs, result_bind, result_get, after_get]
      simp [hs]
    · rw [requireBetweenInputs, after_bind, result_get, after_get]
      simp [hs]
  obtain ⟨hsettle, hsettled⟩ := settleLive_spec keepsHeld hs hrow ht
  obtain ⟨row', hrow', hrun, hrev⟩ := hsettled.own
  rw [retireJob, result_bind, after_bind, hguard.1, hguard.2]
  dsimp only
  rw [result_bind, after_bind, result_get, after_get]
  dsimp only
  rw [hrow]
  dsimp only
  rw [result_bind, after_bind, hsettle]
  dsimp only
  rw [result_bind, after_bind, result_get, after_get]
  dsimp only
  rw [result_bind, after_bind, result_modify, after_modify]
  refine ⟨⟨_, rfl⟩, fun x hx => ?_, fun x hx => ?_, ?_, hsettled.phase, hsettled.gives⟩
  · have hne : x ≠ job := fun h => hx (List.mem_singleton.mpr h)
    simp only [after_pure]
    rw [Dict.get?_erase, if_neg hne, hsettled.other x hne, Dict.get?_set_ne hne, hsettled.tombstones]
    exact ⟨rfl, rfl⟩
  · rw [List.mem_singleton.mp hx]
    simp only [after_pure]
    rw [Dict.get?_erase, if_pos rfl, Dict.get?_set_self]
    refine ⟨rfl, row, _, hrow, rfl, ?_⟩
    rw [RuntimeState.row, hrow']
    exact ⟨hrun, hrev, rfl, rfl⟩
  · simp only [after_pure]
    rw [hsettled.timers]
    congr 1
    funext t
    cases t.event.job with
    | none => simp
    | some x => simp

theorem Retired.apart {gone : List String} (h : Retired s s' gone) (hs : Apart s) : Apart s' := by
  intro x
  by_cases hx : x ∈ gone
  · exact Or.inl (h.buried x hx).1
  · rw [(h.kept x hx).1, (h.kept x hx).2]
    exact hs x

/-- A removal leaves every name its numbers. -/
theorem Retired.ahead {gone : List String} (h : Retired s s' gone) : Ahead s s' := by
  intro x
  by_cases hx : x ∈ gone
  · obtain ⟨hnone, row, tombstone, hrow, ht, hb⟩ := h.buried x hx
    rw [last_of_row hrow, last_of_tombstone hnone ht, hb.run, hb.rev]
    exact ⟨le_rfl, le_rfl⟩
  · rw [last_congr (h.kept x hx).1 (h.kept x hx).2]
    exact ⟨le_rfl, le_rfl⟩

theorem Retired.nil (s : RuntimeState τ ω) : Retired s s [] := by
  refine ⟨fun _ _ => ⟨rfl, rfl⟩, nofun, ?_, rfl, rfl⟩
  have hall : (fun t : Timer τ ω => t.event.job.all (· ∉ ([] : List String))) = fun _ => true := by
    funext t
    cases t.event.job with
    | none => rfl
    | some x => rfl
  rw [hall]
  exact (Timers.keep_true s.timers).symm

/-- One removal, then the others'. -/
theorem Retired.cons {s₁ : RuntimeState τ ω} {jobs : List String} (hj : job ∉ jobs) (h : Retired s s₁ [job])
    (h' : Retired s₁ s' jobs) : Retired s s' (job :: jobs) := by
  refine ⟨fun x hx => ?_, fun x hx => ?_, ?_, h'.phase.trans h.phase, h'.gives.trans h.gives⟩
  · obtain ⟨hne, hrest⟩ : x ≠ job ∧ x ∉ jobs := by simpa using hx
    have hone : x ∉ [job] := by simpa using hne
    exact ⟨(h'.kept x hrest).1.trans (h.kept x hone).1, (h'.kept x hrest).2.trans (h.kept x hone).2⟩
  · by_cases hx' : x = job
    · subst hx'
      obtain ⟨hnone, row, tombstone, hrow, ht, hb⟩ := h.buried x (List.mem_singleton_self x)
      exact ⟨(h'.kept x hj).1.trans hnone, row, tombstone, hrow, (h'.kept x hj).2.trans ht, hb⟩
    · have hrest : x ∈ jobs := (List.mem_cons.mp hx).resolve_left hx'
      obtain ⟨hnone, row, tombstone, hrow, ht, hb⟩ := h'.buried x hrest
      exact ⟨hnone, row, tombstone, (h.kept x (by simpa using hx')).1 ▸ hrow, ht, hb⟩
  · rw [h'.timers, h.timers, Timers.keep_keep]
    congr 1
    funext t
    cases t.event.job with
    | none => rfl
    | some x => simp [List.mem_cons, not_or]

/-- What an addition leaves: a row with its name's run number and a later revision. -/
structure Joined (s s' : RuntimeState τ ω) (fresh : List String) : Prop where
  kept : ∀ x, x ∉ fresh → s'.jobs.get? x = s.jobs.get? x ∧ s'.tombstones.get? x = s.tombstones.get? x
  row : ∀ x ∈ fresh, s.jobs.get? x = none ∧ s'.tombstones.get? x = none ∧ ∃ row, s'.jobs.get? x = some row ∧
    row.runNumber = (s.last x).runNumber ∧ row.reservations = [] ∧ row.waiterSeq = none ∧
    (s.last x).stateRev ≤ row.stateRev ∧
    ((s.tombstones.get? x).isSome → (s.last x).stateRev < row.stateRev)
  timers : s'.timers = s.timers
  phase : s'.phase = s.phase
  gives : s'.jobInstance = s.jobInstance

/-- **An addition between inputs of a name with no row.** -/
theorem admitJob_spec (onIce onHold onNoexec : Bool) (hs : ¬ s.phase.isOpen) (hrow : s.jobs.get? job = none) :
    (admitJob job onIce onHold onNoexec).result s = .ok () ∧
      Joined s ((admitJob job onIce onHold onNoexec).after s) [job] := by
  have hguard : (requireBetweenInputs "admit_job" job).result s = .ok () ∧
      (requireBetweenInputs "admit_job" job).after s = s := by
    constructor
    · rw [requireBetweenInputs, result_bind, result_get, after_get]
      simp [hs]
    · rw [requireBetweenInputs, after_bind, result_get, after_get]
      simp [hs]
  rw [admitJob, result_bind, after_bind, hguard.1, hguard.2]
  dsimp only
  rw [result_bind, after_bind, result_get, after_get]
  simp only [hrow, Option.isSome_none, Bool.false_eq_true, if_false, result_modify, after_modify, true_and]
  refine ⟨fun x hx => ?_, fun x hx => ?_, rfl, rfl, rfl⟩
  · have hne : x ≠ job := fun h => hx (List.mem_singleton.mpr h)
    rw [Dict.get?_erase, if_neg hne, Dict.get?_set_ne hne]
    exact ⟨rfl, rfl⟩
  · rw [List.mem_singleton.mp hx]
    rw [Dict.get?_erase, if_pos rfl, Dict.get?_set_self]
    refine ⟨hrow, rfl, _, rfl, ?_⟩
    cases ht : s.tombstones.get? job with
    | none =>
      have hlast : s.last job = {} := by rw [RuntimeState.last, hrow, ht]; rfl
      rw [hlast]
      exact ⟨rfl, rfl, rfl, le_rfl, by simp⟩
    | some tombstone =>
      rw [last_of_tombstone hrow ht]
      exact ⟨rfl, rfl, rfl, Nat.le_succ _, fun _ => Nat.lt_succ_self _⟩

theorem Joined.apart {fresh : List String} (h : Joined s s' fresh) (hs : Apart s) : Apart s' := by
  intro x
  by_cases hx : x ∈ fresh
  · exact Or.inr (h.row x hx).2.1
  · rw [(h.kept x hx).1, (h.kept x hx).2]
    exact hs x

/-- An addition moves no name's numbers back. -/
theorem Joined.ahead {fresh : List String} (h : Joined s s' fresh) : Ahead s s' := by
  intro x
  by_cases hx : x ∈ fresh
  · obtain ⟨-, -, row, hrow, hrun, -, -, hrev, -⟩ := h.row x hx
    rw [last_of_row hrow, hrun]
    exact ⟨le_rfl, hrev⟩
  · rw [last_congr (h.kept x hx).1 (h.kept x hx).2]
    exact ⟨le_rfl, le_rfl⟩

theorem Joined.nil (s : RuntimeState τ ω) : Joined s s [] := ⟨fun _ _ => ⟨rfl, rfl⟩, nofun, rfl, rfl, rfl⟩

/-- One addition, then the others'. -/
theorem Joined.cons {s₁ : RuntimeState τ ω} {jobs : List String} (hj : job ∉ jobs) (h : Joined s s₁ [job])
    (h' : Joined s₁ s' jobs) : Joined s s' (job :: jobs) := by
  refine ⟨fun x hx => ?_, fun x hx => ?_, h'.timers.trans h.timers, h'.phase.trans h.phase, h'.gives.trans h.gives⟩
  · obtain ⟨hne, hrest⟩ : x ≠ job ∧ x ∉ jobs := by simpa using hx
    have hone : x ∉ [job] := by simpa using hne
    exact ⟨(h'.kept x hrest).1.trans (h.kept x hone).1, (h'.kept x hrest).2.trans (h.kept x hone).2⟩
  · by_cases hx' : x = job
    · subst hx'
      obtain ⟨hnone, ht, row, hrow, hfacts⟩ := h.row x (List.mem_singleton_self x)
      exact ⟨hnone, (h'.kept x hj).2.trans ht, row, (h'.kept x hj).1.trans hrow, hfacts⟩
    · have hrest : x ∈ jobs := (List.mem_cons.mp hx).resolve_left hx'
      obtain ⟨hj₁, ht₁⟩ := h.kept x (by simpa using hx')
      obtain ⟨hnone, ht, row, hrow, hfacts⟩ := h'.row x hrest
      rw [last_congr hj₁ ht₁, ht₁] at hfacts
      exact ⟨hj₁ ▸ hnone, ht, row, hrow, hfacts⟩

/-! ## The instances after -/

/-- Each row has the instance it gives, and no other name has one. -/
def Restored (f : JobInstance τ) (s : RuntimeState τ ω) : Prop :=
  ∀ x, s.instances x = (s.jobs.get? x).bind fun row => (f x row).toOption

omit [LinearOrder τ] in
/-- Rows that each give an instance all get it: their names differ. -/
theorem restoreEach_total {f : JobInstance τ} (hf : ∀ job row, ∃ active, f job row = .ok active)
    {l : List (String × JobRuntime τ)} {instances : String → Option (Finset StateMachine.Name)}
    (hnd : (l.map Prod.fst).Nodup) (hfree : ∀ x ∈ l.map Prod.fst, instances x = none) :
    ∃ rebuilt, l.foldlM (fun instances e => restoreJob f e.1 e.2 instances) instances = .ok rebuilt ∧
      ∀ x, (∀ row, (x, row) ∈ l → rebuilt x = (f x row).toOption) ∧
        (x ∉ l.map Prod.fst → rebuilt x = instances x) := by
  induction l generalizing instances with
  | nil => exact ⟨instances, rfl, fun _ => ⟨fun _ h => absurd h List.not_mem_nil, fun _ => rfl⟩⟩
  | cons e l ih =>
    obtain ⟨job, row⟩ := e
    obtain ⟨hjob, hnd⟩ : job ∉ l.map Prod.fst ∧ (l.map Prod.fst).Nodup := List.nodup_cons.mp hnd
    obtain ⟨active, hactive⟩ := hf job row
    have hone : restoreJob f job row instances = .ok (Function.update instances job (some active)) := by
      rw [restoreJob, hactive, Infra.ok_bind, hfree job (by simp)]
    have hrest : ∀ x ∈ l.map Prod.fst, Function.update instances job (some active) x = none := by
      intro x hx
      have hne : x ≠ job := fun h => hjob (h ▸ hx)
      rw [Function.update_of_ne hne]
      exact hfree x (List.mem_cons_of_mem _ hx)
    obtain ⟨rebuilt, hrebuilt, hspec⟩ := ih hnd hrest
    refine ⟨rebuilt, by rw [List.foldlM_cons, hone, Infra.ok_bind, hrebuilt], fun x => ⟨fun row' hx => ?_, fun hx => ?_⟩⟩
    · rcases List.mem_cons.mp hx with hx | hx
      · cases hx
        rw [(hspec job).2 hjob, Function.update_self, hactive]
        rfl
      · exact (hspec x).1 row' hx
    · rw [List.map_cons, List.mem_cons, not_or] at hx
      rw [(hspec x).2 hx.2, Function.update_of_ne hx.1]

/-- **A rebuild of the instances raises nothing and changes nothing else.** -/
theorem restoreInstances_spec {f : JobInstance τ} (hf : ∀ job row, ∃ active, f job row = .ok active)
    (hs : s.jobInstance = some f) :
    (restoreInstances : RuntimeM τ ω _).result s = .ok () ∧
      ∃ instances, (restoreInstances : RuntimeM τ ω _).after s = { s with instances } ∧
        Restored f ({ s with instances } : RuntimeState τ ω) := by
  obtain ⟨instances, hrebuilt, hspec⟩ := restoreEach_total hf s.jobs.nodup fun _ _ => rfl
  have hrebuild : rebuildInstances f s.jobs = .ok instances := hrebuilt
  rw [restoreInstances, result_bind, after_bind, result_get, after_get]
  dsimp only
  rw [hs]
  dsimp only
  rw [hrebuild]
  refine ⟨rfl, instances, ?_, fun x => ?_⟩
  · rw [← hs]
    rfl
  · dsimp only
    cases hrow : s.jobs.get? x with
    | none => exact (hspec x).2 (Dict.get?_eq_none.mp hrow)
    | some row => exact (hspec x).1 row (Dict.get?_eq_some.mp hrow)

end Dsl41.Store
