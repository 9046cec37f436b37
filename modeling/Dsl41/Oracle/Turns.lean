import Dsl41.Oracle.Machine
import Dsl41.StateMachine.Prompt

/-!
# A turn of the oracle's executor

Both charts are prompt and an action writes the cascade's records alone, so a turn is a microstep
or the next root item, and what it changes outside the records is what the hook wrote.

* `Neat` — what every action of the two charts is
* `Instanced` — the chart and the data of each key's instance
* `Machine.Charted` — the executor of the oracle, kept by every turn
-/

namespace Dsl41.Oracle

open Dsl41.Infra Dsl41.Store
open Dsl41.StateMachine (Round Prompt Plain index)

/-! ## The actions -/

/-- The world with other records of the cascade, and perhaps a raise. -/
def World.Booked (w w' : World) : Prop := ∃ cascade raised, w' = { w with cascade, raised }

theorem World.Booked.refl (w : World) : w.Booked w := ⟨w.cascade, w.raised, rfl⟩

theorem World.Booked.trans {w w' w'' : World} (h : w.Booked w') (h' : w'.Booked w'') : w.Booked w'' := by
  obtain ⟨_, _, rfl⟩ := h
  obtain ⟨cascade, raised, rfl⟩ := h'
  exact ⟨cascade, raised, rfl⟩

/-- An action writes records, continues nothing and re-arms nothing. -/
def Neat (action : JobAction) : Prop :=
  ∀ ctx w, w.Booked (action ctx w).2 ∧
    ∀ fx, (action ctx w).1 = some fx → fx.andThen = "" ∧ fx.rearm = []

theorem raise_booked (w : World) (e : OracleError) : w.Booked (w.raise e) := ⟨w.cascade, _, rfl⟩

theorem allocate_booked (w : World) (c : Consequences) : w.Booked (w.allocate c) := ⟨_, w.raised, rfl⟩

theorem setScan_booked (w : World) (scan : ScanRecord) : w.Booked (w.setScan scan) := ⟨_, w.raised, rfl⟩

theorem Step.effects_plain (s : Step) : s.effects.andThen = "" ∧ s.effects.rearm = [] := ⟨rfl, rfl⟩

theorem asks_neat (f : Reaction) : Neat (asks f) := by
  intro ctx w
  unfold asks
  split
  · exact ⟨raise_booked w _, nofun⟩
  · split
    · exact ⟨raise_booked w _, nofun⟩
    · exact ⟨.refl w, nofun⟩
    · next c _ => exact ⟨allocate_booked w c, fun fx h => Option.some.inj h ▸ Step.effects_plain _⟩

theorem writesStatus_neat : Neat writesStatus := by
  intro ctx w
  unfold writesStatus
  split
  · exact ⟨.refl w, nofun⟩
  · exact asks_neat _ ctx w

theorem relayStart_neat : Neat relayStart := by
  intro ctx w
  unfold relayStart
  split
  · exact ⟨.refl w, fun fx h => Option.some.inj h ▸ ⟨rfl, rfl⟩⟩
  · exact ⟨raise_booked w _, nofun⟩

theorem settleEndedRun_neat : Neat settleEndedRun := by
  intro ctx w
  unfold settleEndedRun
  split
  · exact ⟨.refl w, fun fx h => Option.some.inj h ▸ ⟨rfl, rfl⟩⟩
  · exact ⟨raise_booked w _, nofun⟩

theorem reportIce_neat : Neat reportIce := by
  intro ctx w
  unfold reportIce
  split
  · exact ⟨raise_booked w _, nofun⟩
  · exact ⟨.refl w, fun fx h => Option.some.inj h ▸ ⟨rfl, rfl⟩⟩

theorem readsDoor_neat : Neat readsDoor := by
  intro ctx w
  unfold readsDoor
  split
  · exact ⟨.refl w, nofun⟩
  · exact ⟨raise_booked w _, nofun⟩

theorem resume_neat (w : World) (m : Moment) (again : Moment → List Send) :
    w.Booked (resume w m again).2 ∧
      ∀ fx, (resume w m again).1 = some fx → fx.andThen = "" ∧ fx.rearm = [] := by
  unfold resume
  split
  · exact ⟨raise_booked w _, nofun⟩
  · exact ⟨.refl w, nofun⟩
  · exact ⟨.refl w, fun fx h => Option.some.inj h ▸ Step.effects_plain _⟩

theorem momentAction_neat : Neat momentAction := by
  intro ctx w
  unfold momentAction
  split
  · exact resume_neat w _ _
  · exact resume_neat w _ _
  · exact resume_neat w _ _
  · exact ⟨raise_booked w _, nofun⟩

theorem actions_neat : ∀ p ∈ ACTIONS, Neat p.2 := by
  simp only [ACTIONS, List.forall_mem_cons, asks_neat, relayStart_neat, settleEndedRun_neat,
    writesStatus_neat, readsDoor_neat, reportIce_neat, momentAction_neat, true_and]
  exact nofun

theorem beginsPass_neat : Neat beginsPass := by
  intro ctx w
  unfold beginsPass
  split
  · exact ⟨raise_booked w _, nofun⟩
  · exact ⟨setScan_booked w _, fun fx h => Option.some.inj h ▸ ⟨rfl, rfl⟩⟩

theorem readmits_neat : Neat readmits := by
  intro ctx w
  unfold readmits
  split
  · exact ⟨raise_booked w _, nofun⟩
  · dsimp only
    split
    · exact ⟨⟨_, _, rfl⟩, nofun⟩
    · exact ⟨⟨_, w.raised, rfl⟩, fun fx h => Option.some.inj h ▸ Step.effects_plain _⟩

theorem upgrades_neat : Neat upgrades := fun _ w => ⟨setScan_booked w _, nofun⟩

theorem scanActions_neat : ∀ p ∈ SCAN_ACTIONS, Neat p.2 := by
  simp only [SCAN_ACTIONS, List.forall_mem_cons, beginsPass_neat, readmits_neat, upgrades_neat, true_and]
  exact nofun

theorem neat_of_lookup {l : List (StateMachine.Name × JobAction)} (hl : ∀ p ∈ l, Neat p.2) {name : StateMachine.Name}
    {action : JobAction} (h : List.lookup name l = some action) : Neat action := by
  obtain ⟨l₁, l₂, hl', -⟩ := List.lookup_eq_some_iff.mp h
  exact hl (name, action) (by simp [hl'])

/-! ## The charts -/

theorem job_prompt : Prompt JOB := by
  refine .of_entries ?_ ?_ rfl
  · intro name action h ctx w fx hfx
    exact (neat_of_lookup actions_neat h ctx w).2 fx hfx
  · have h : (index JOB).entries.all (fun e => e.state.defer = [] && !e.state.final) = true := by decide
    simpa using h

theorem scan_prompt : Prompt QUEUE_SCAN := by
  refine .of_entries ?_ ?_ rfl
  · intro name action h ctx w fx hfx
    exact (neat_of_lookup scanActions_neat h ctx w).2 fx hfx
  · have h : (index QUEUE_SCAN).entries.all (fun e => e.state.defer = [] && !e.state.final) = true := by decide
    simpa using h

/-! ## The instances -/

/-- The chart and the data of a key's instance, under a catalog. -/
def Instanced (catalog : CatalogIR) : Key → StateMachine.Statechart Key Payload World → Payload → Prop
  | .scan, chart, _ => chart = QUEUE_SCAN
  | .job job, chart, data => chart = JOB ∧ ∀ v : View, v.catalog = catalog → data = .data (v.jobData job)

theorem Instanced.prompt {catalog : CatalogIR} : ∀ key chart data, Instanced catalog key chart data → Prompt chart
  | .scan, _, _, rfl => scan_prompt
  | .job _, _, _, ⟨rfl, _⟩ => job_prompt

theorem Instanced.neat {catalog : CatalogIR} {chart : StateMachine.Statechart Key Payload World} {data : Payload} :
    ∀ {key}, Instanced catalog key chart data → ∀ name action, chart.actions name = some action → Neat action
  | .scan, rfl, _, _, h => neat_of_lookup scanActions_neat h
  | .job _, ⟨rfl, _⟩, _, _, h => neat_of_lookup actions_neat h

/-- The instances are of the catalog in force, and the executor holds events and completions alone. -/
def Machine.Charted (e : Machine) : Prop := e.executor.Prompt (Instanced e.world.catalog)

theorem jobData_congr {v v' : View} (h : v'.catalog = v.catalog) (job : String) : v'.jobData job = v.jobData job := by
  unfold View.jobData View.ir?
  rw [h]

theorem View.instances_instanced (v : View) : ∀ key inst, v.instances key = some inst →
    Instanced v.catalog key inst.chart inst.data ∧ inst.deferred = []
  | .scan, inst, h => by
    cases h
    exact ⟨rfl, rfl⟩
  | .job job, inst, h => by
    obtain ⟨row, -, rfl⟩ := Option.map_eq_some_iff.mp h
    exact ⟨⟨rfl, fun v' hv => by rw [jobInstance, jobData_congr hv]⟩, rfl⟩

/-- **An executor rebuilt from the rows is prompt.** -/
theorem rebuilt_prompt (w : World) : (rebuilt w).Prompt (Instanced w.catalog) :=
  ⟨w.view.instances_instanced, rfl, by simp [rebuilt]⟩

end Dsl41.Oracle
