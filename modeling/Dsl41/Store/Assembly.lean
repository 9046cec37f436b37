import Dsl41.StateMachine.Legal

/-!
# The assembly of a store

`RUNTIME_ASSEMBLY` is the chart of the store's phases. The store model carries the phase itself
and moves it by `assemble`; `dispatch_runtimeAssembly` says that this table is what the executor
does on the chart, from every phase and for every verb.
-/

namespace Dsl41.Store

open Dsl41.StateMachine

/-- `ASSEMBLY_PHASES`: the chart's leaves. -/
inductive AssemblyPhase where
  | fresh | installed | genesisInput | genesis | constructed | seeded | input | live
deriving DecidableEq, Repr

/-- The events of the chart: the owner's verbs. -/
inductive AssemblyEvent where
  | install | beginInput | commitInput | finishGenesis | seedPeriod
deriving DecidableEq, Repr

/-- The refusal codes. -/
inductive Refusal where
  | installOnUsedState | inputAlreadyOpen | noInputOpen | insideGenesisInput
  | constructionFinished | constructionAfterSeed | seedInsideInput | seedOnUsedState
deriving DecidableEq, Repr

namespace AssemblyPhase

def name : AssemblyPhase → Name
  | fresh => "fresh"
  | installed => "installed"
  | genesisInput => "genesis_input"
  | genesis => "genesis"
  | constructed => "constructed"
  | seeded => "seeded"
  | input => "input"
  | live => "live"

/-- The group above the leaf. -/
def group : AssemblyPhase → Name
  | fresh | installed | genesis => "unbuilt"
  | genesisInput | input => "open"
  | constructed | seeded | live => "built"

/-- The configuration of the assembly instance. -/
def configuration (phase : AssemblyPhase) : Finset Name :=
  {"runtime_assembly", phase.group, phase.name}

/-- `"open" in machines.active(ASSEMBLY_KEY)`. -/
def isOpen (phase : AssemblyPhase) : Bool := phase.group = "open"

/-- What a verb does to a phase, or the code of its refusal. -/
def assemble : AssemblyEvent → AssemblyPhase → Except Refusal AssemblyPhase
  | .install, fresh => .ok installed
  | .install, _ => .error .installOnUsedState
  | .beginInput, fresh | .beginInput, installed | .beginInput, genesis => .ok genesisInput
  | .beginInput, constructed | .beginInput, seeded | .beginInput, live => .ok input
  | .beginInput, genesisInput | .beginInput, input => .error .inputAlreadyOpen
  | .commitInput, genesisInput => .ok genesis
  | .commitInput, input => .ok live
  | .commitInput, _ => .error .noInputOpen
  | .finishGenesis, fresh | .finishGenesis, installed | .finishGenesis, genesis => .ok constructed
  | .finishGenesis, genesisInput => .error .insideGenesisInput
  | .finishGenesis, seeded => .error .constructionAfterSeed
  | .finishGenesis, _ => .error .constructionFinished
  | .seedPeriod, fresh | .seedPeriod, installed | .seedPeriod, constructed => .ok seeded
  | .seedPeriod, genesisInput | .seedPeriod, input => .error .seedInsideInput
  | .seedPeriod, _ => .error .seedOnUsedState

variable {phase phase' : AssemblyPhase}

theorem isOpen_of_begin (h : phase.assemble .beginInput = .ok phase') : phase'.isOpen := by
  cases phase <;> cases h <;> decide

theorem not_isOpen_of_begin (h : phase.assemble .beginInput = .ok phase') : ¬ phase.isOpen := by
  cases phase <;> cases h <;> decide

theorem not_isOpen_of_commit (h : phase.assemble .commitInput = .ok phase') :
    ¬ phase'.isOpen := by
  cases phase <;> cases h <;> decide

/-- No verb but a commit leaves an open input. -/
theorem assemble_of_isOpen {event : AssemblyEvent} (h : phase.isOpen) (he : event ≠ .commitInput) :
    ∃ code, phase.assemble event = .error code := by
  cases phase <;> first | exact absurd h (by decide) | skip
  all_goals
    cases event with
    | commitInput => exact absurd rfl he
    | _ => exact ⟨_, rfl⟩

end AssemblyPhase

/-! ## The chart -/

def AssemblyEvent.name : AssemblyEvent → Name
  | install => "install"
  | beginInput => "begin_input"
  | commitInput => "commit_input"
  | finishGenesis => "finish_genesis"
  | seedPeriod => "seed_period"

def Refusal.code : Refusal → String
  | installOnUsedState => "install_on_used_state"
  | inputAlreadyOpen => "input_already_open"
  | noInputOpen => "no_input_open"
  | insideGenesisInput => "inside_genesis_input"
  | constructionFinished => "construction_finished"
  | constructionAfterSeed => "construction_after_seed"
  | seedInsideInput => "seed_inside_input"
  | seedOnUsedState => "seed_on_used_state"

def leaf (name : Name) : State := .mk name [] "" "" [] false [] ""

/-- A state with one region of leaves. -/
def group (name region initial : Name) (states : List Name) : State :=
  .mk name [.mk region initial (states.map leaf)] "" "" [] false [] ""

/-- A refusal row. -/
def refuse (id source : Name) (event : AssemblyEvent) (code : Refusal) : Row :=
  { id, source, event := event.name, kind := .refusal, code := code.code }

def move (id source : Name) (event : AssemblyEvent) (target : Name) : Row :=
  { id, source, event := event.name, target }

/-- `RUNTIME_ASSEMBLY`. -/
def runtimeAssembly : Statechart String Unit Unit where
  name := "runtime_assembly"
  root := .mk "runtime_assembly" [.mk "phase" "unbuilt" [
    group "unbuilt" "construction" "fresh" ["fresh", "installed", "genesis"],
    group "open" "inputs" "genesis_input" ["genesis_input", "input"],
    group "built" "service" "constructed" ["constructed", "seeded", "live"]]] "" "" [] false [] ""
  rows := [
    move "runtime_assembly.01" "fresh" .install "installed",
    move "runtime_assembly.03" "genesis_input" .commitInput "genesis",
    move "runtime_assembly.04" "unbuilt" .finishGenesis "constructed",
    move "runtime_assembly.05" "fresh" .seedPeriod "seeded",
    move "runtime_assembly.07" "input" .commitInput "live",
    move "runtime_assembly.12" "installed" .seedPeriod "seeded",
    move "runtime_assembly.13" "constructed" .seedPeriod "seeded",
    move "runtime_assembly.41" "unbuilt" .beginInput "genesis_input",
    move "runtime_assembly.42" "built" .beginInput "input",
    refuse "runtime_assembly.16" "installed" .install .installOnUsedState,
    refuse "runtime_assembly.18" "genesis" .install .installOnUsedState,
    refuse "runtime_assembly.31" "constructed" .finishGenesis .constructionFinished,
    refuse "runtime_assembly.32" "seeded" .finishGenesis .constructionAfterSeed,
    refuse "runtime_assembly.33" "genesis_input" .finishGenesis .insideGenesisInput,
    refuse "runtime_assembly.34" "input" .finishGenesis .constructionFinished,
    refuse "runtime_assembly.35" "live" .finishGenesis .constructionFinished,
    refuse "runtime_assembly.37" "genesis" .seedPeriod .seedOnUsedState,
    refuse "runtime_assembly.38" "seeded" .seedPeriod .seedOnUsedState,
    refuse "runtime_assembly.40" "live" .seedPeriod .seedOnUsedState,
    refuse "runtime_assembly.43" "open" .install .installOnUsedState,
    refuse "runtime_assembly.44" "built" .install .installOnUsedState,
    refuse "runtime_assembly.45" "unbuilt" .commitInput .noInputOpen,
    refuse "runtime_assembly.46" "built" .commitInput .noInputOpen,
    refuse "runtime_assembly.47" "open" .beginInput .inputAlreadyOpen,
    refuse "runtime_assembly.48" "open" .seedPeriod .seedInsideInput]
  clock := .logical

/-- `_assemble` on the executor: the instance's configuration after the verb, and the refusals
its one outcome names. -/
def dispatchAssembly (phase : AssemblyPhase) (event : AssemblyEvent) :
    Option (Finset Name × List String) := do
  let e ← ((Executor.idle ()).restore "assembly" runtimeAssembly phase.configuration ()).toOption
  let e ← (e.post "assembly" { name := event.name, payload := () }).toOption
  match ← (e.run (fun _ r => r.world) 3).toOption with
  | some (e, [out]) =>
    let inst ← e.records.instances "assembly"
    return (inst.active, out.refusals)
  | _ => none

theorem configuration_legal (phase : AssemblyPhase) :
    (index runtimeAssembly).Configuration phase.configuration := by
  cases phase <;> decide +kernel

theorem restore_runtimeAssembly (phase : AssemblyPhase) (e : Executor String Unit Unit) :
    e.restore "assembly" runtimeAssembly phase.configuration () =
      e.add "assembly"
        { chart := runtimeAssembly, data := (), active := phase.configuration } := by
  rw [Executor.restore, configurationProblem_none.mpr (configuration_legal phase)]

/-- The executor's answer from a phase: the configuration of what `assemble` gives, or the same
phase and the code of the refusal. -/
theorem dispatch_runtimeAssembly (phase : AssemblyPhase) (event : AssemblyEvent) :
    dispatchAssembly phase event = match phase.assemble event with
      | .ok phase' => some (phase'.configuration, [])
      | .error code => some (phase.configuration, [code.code]) := by
  rw [dispatchAssembly, restore_runtimeAssembly]
  cases phase <;> cases event <;> decide +kernel

end Dsl41.Store
