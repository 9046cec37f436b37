import Dsl41.StateMachine.Chart

/-!
# Selection

For one event in one instance the whole firing set is computed before any action runs: each
active leaf is walked outward to a row or a deferral, and four passes filter the candidates.

A guard reads its context and the world and writes neither, so the memo of `_select` (one
evaluation per state and event) is not modelled: a second evaluation answers the same.
-/

namespace Dsl41.StateMachine

variable {κ υ ω : Type}

/-- `_holds`: no guard holds; a guard missing from the registry raises. -/
def holds (chart : Statechart κ υ ω) (guard : Name) (ctx : Context κ υ) (world : ω) :
    Except StatechartError Bool :=
  if guard = "" then .ok true
  else
    match chart.guards guard with
    | some g => .ok (g ctx world)
    | none => .error (.notInRegistry "guard" guard)

/-- The rows whose guards hold; every guard is evaluated. -/
def heldRows (chart : Statechart κ υ ω) (ctx : Context κ υ) (world : ω) :
    List Row → Except StatechartError (List Row)
  | [] => .ok []
  | row :: rows => do
    let held ← holds chart row.guard ctx world
    let rest ← heldRows chart ctx world rows
    return if held then row :: rest else rest

/-- `_enabled`: the enabled row of a state for an event, or none. -/
def enabled (chart : Statechart κ υ ω) (ix : Index) (state event : Name) (ctx : Context κ υ)
    (world : ω) : Except StatechartError (Option Row) := do
  let rows ← heldRows chart ctx world (ix.rowsFor state event)
  match rows with
  | [] => return none
  | [row] => return some row
  | rows => .error (.ambiguousRows (rows.map (·.id)) state event)

/-- Where one region's walk ends. -/
inductive WalkEnd where
  | row (row : Row)
  | deferral (state : Name)
  | nothing

/-- The walk from a leaf outward, along its path. -/
def walk (chart : Statechart κ υ ω) (ix : Index) (ctx : Context κ υ) (world : ω) :
    List Name → Except StatechartError WalkEnd
  | [] => .ok .nothing
  | state :: up => do
    match ← enabled chart ix state ctx.event.name ctx world with
    | some row => return .row row
    | none =>
      if ctx.event.name ∈ ix.defer state then return .deferral state
      else walk chart ix ctx world up

/-- The candidates and the deferring states, each once, in the order the walks find them. -/
def gather (chart : Statechart κ υ ω) (ix : Index) (ctx : Context κ υ) (world : ω) :
    List Name → List Row × List Name → Except StatechartError (List Row × List Name)
  | [], found => .ok found
  | leaf :: leaves, (candidates, deferring) => do
    match ← walk chart ix ctx world (ix.path leaf) with
    | .row row =>
      gather chart ix ctx world leaves
        (if row ∈ candidates then candidates else candidates ++ [row], deferring)
    | .deferral state =>
      gather chart ix ctx world leaves
        (candidates, if state ∈ deferring then deferring else deferring ++ [state])
    | .nothing => gather chart ix ctx world leaves (candidates, deferring)

/-- A refusal stands alone. -/
def refusalAlone (candidates : List Row) : Except StatechartError (List Row) :=
  match candidates.filter (·.kind = .refusal) with
  | refusal :: _ =>
    if 1 < candidates.length then
      .error (.refusalBeside refusal.id
        ((candidates.map (·.id)).filter (· ≠ refusal.id)) (candidates.map (·.id)))
    else .ok candidates
  | [] => .ok candidates

/-- `_yielded`: an ignored row yields to any other candidate; a refusal stands alone. -/
def yielded (candidates : List Row) : Except StatechartError (List Row) :=
  let consuming := candidates.filter (·.kind ≠ .ignored)
  refusalAlone (if consuming = [] then candidates else consuming)

/-- `_exit_set`: the states a row leaves in a configuration. -/
def exitSet (ix : Index) (active : Finset Name) (row : Row) :
    Except StatechartError (Finset Name) :=
  if row.kind ≠ .external then .ok ∅
  else do
    let exits ← (ix.plan row).exits ix active
    return exits.toFinset

/-- Each candidate beside its exit set. -/
def exitSets (ix : Index) (active : Finset Name) (candidates : List Row) :
    Except StatechartError (List (Row × Finset Name)) :=
  candidates.mapM fun row => do return (row, ← exitSet ix active row)

def meets (a b : Row × Finset Name) : Bool := (a.2 ∩ b.2).Nonempty

/-- The first pair of a list whose exit sets meet. -/
def firstMeeting : List (Row × Finset Name) → Option (Row × Row)
  | [] => none
  | a :: rest =>
    match rest.find? (meets a) with
    | some b => some (a.1, b.1)
    | none => firstMeeting rest

/-- One depth of `_without_conflicts`: a candidate that meets a kept deeper one is dropped, and
two that remain at one depth and meet raise. -/
def keepDepth (ix : Index) (exits kept : List (Row × Finset Name)) (depth : Nat) :
    Except StatechartError (List (Row × Finset Name)) :=
  let level := exits.filter fun p => ix.depth p.1.source = depth ∧ ¬ kept.any (meets p)
  match firstMeeting level with
  | some (a, b) => .error (.ambiguousExits a.id b.id (exits.map (·.1.id)))
  | none => .ok (kept ++ level)

/-- `_without_conflicts`: crossing exit sets resolved from the deepest candidate outward. -/
def withoutConflicts (ix : Index) (active : Finset Name) (candidates : List Row) :
    Except StatechartError (List Row) := do
  let exits ← exitSets ix active candidates
  let depths := ((candidates.map fun row => ix.depth row.source).dedup).insertionSort (· ≥ ·)
  let kept ← depths.foldlM (keepDepth ix exits) []
  return candidates.filter fun row => row ∈ kept.map (·.1)

/-- `_without_exited_sources`: drop a candidate whose source another surviving candidate
exits. -/
def withoutExitedSources (ix : Index) (active : Finset Name) (candidates : List Row) :
    Except StatechartError (List Row) := do
  let exits ← exitSets ix active candidates
  return candidates.filter fun row => ¬ exits.any fun p => p.1 ≠ row ∧ row.source ∈ p.2

/-- `_select`: the firing set, and the states whose deferral ended a walk. -/
def select (chart : Statechart κ υ ω) (ix : Index) (active : Finset Name) (ctx : Context κ υ)
    (world : ω) : Except StatechartError (List Row × List Name) := do
  let (candidates, deferring) ← gather chart ix ctx world (ix.leaves active) ([], [])
  -- an inner deferral beats the row of a state the regions share
  let kept := candidates.filter fun row => ¬ deferring.any fun d => ix.below d row.source
  let firing ← withoutConflicts ix active (← yielded kept)
  return (← withoutExitedSources ix active firing, deferring)

end Dsl41.StateMachine
