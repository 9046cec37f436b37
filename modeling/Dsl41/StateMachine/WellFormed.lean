import Dsl41.StateMachine.Configuration

/-!
# Well-formedness of a declaration

`wellFormed` lists the problems with a chart, in the order of the source; no problem means well
formed. The checks that walk the tree run only on a sound one. A problem carries the facts its
text names.

* `WellFormed` — what the executor relies on
* `WellFormed.of_nil` — a chart without problems has it
-/

namespace Dsl41.StateMachine

variable {κ υ ω : Type}

/-- One problem, with the facts its text names. -/
inductive Problem where
  | machineName (name : Name)
  | idShape (id : Name)
  | duplicateId (id : Name)
  | initialReserved
  | duplicateName (name : Name)
  | rootFinal (root : Name)
  | noClock
  | initialNotAState (state region initial : Name)
  | finalWithParts (state : Name)
  | actionNotInRegistry (place action : Name)
  | guardNotInRegistry (place guard : Name)
  | sourceNotDeclared (row source : Name)
  | finalHasRow (row source : Name)
  | targetNotDeclared (row target : Name)
  | kindHasNoTarget (row : Name) (kind : RowKind)
  | kindRunsNoAction (row : Name) (kind : RowKind)
  | refusalCode (row : Name)
  | completionIsExternal (row : Name)
  | overflowedIsInternal (row : Name)
  | falseUnreachable (row : Name)
  | noElseBranch (choice : Name)
  | elseNotOnlyLast (choice : Name)
  | choiceNotTargeted (choice : Name)
  | siblingTarget (row target source : Name)
  | deferBound
  | noOverflowedRow (state : Name)
  | overflowedWithoutDefer (row source : Name)
  | waitWithoutExit (state : Name) (awaited : List Name)
  | notReachable (state : Name)
  | fallsThrough (event : Name) (hole : List Name)
  | exclusionIncomplete (exclusion : Exclusion)
  | exclusionOfFinal (exclusion : Exclusion) (final : Name)
  deriving DecidableEq, Repr

/-- One check: its problem when it fails. -/
def require (ok : Prop) [Decidable ok] (problem : Problem) : List Problem :=
  if ok then [] else [problem]

@[simp] theorem require_eq_nil {ok : Prop} [Decidable ok] {problem : Problem} :
    require ok problem = [] ↔ ok := by
  unfold require
  split <;> simp_all

/-- The elements that occur more than once, each once, sorted. -/
def duplicates (l : List Name) : List Name :=
  (l.filter (1 < l.count ·)).dedup.insertionSort (· ≤ ·)

theorem duplicates_eq_nil {l : List Name} : duplicates l = [] ↔ l.Nodup := by
  rw [List.nodup_iff_count_le_one]
  constructor
  · intro h a
    by_contra hlt
    have ha : a ∈ l := List.count_pos_iff.mp (by omega)
    have : a ∈ duplicates l := by
      simp only [duplicates, List.mem_insertionSort, List.mem_dedup, List.mem_filter]
      exact ⟨ha, by simpa using hlt⟩
    rw [h] at this
    cases this
  · intro h
    rw [List.eq_nil_iff_forall_not_mem]
    intro a ha
    simp only [duplicates, List.mem_insertionSort, List.mem_dedup, List.mem_filter,
      decide_eq_true_eq] at ha
    exact absurd (h a) (by omega)

/-! ## Ids -/

/-- A character of `[a-z]`. -/
def lowercase (c : Char) : Bool := 'a' ≤ c ∧ c ≤ 'z'

/-- `NAME_PATTERN`: `[a-z][a-z_]*`. -/
def machineName (name : Name) : Bool :=
  match name.toList with
  | [] => false
  | c :: cs => lowercase c && cs.all fun d => lowercase d || d = '_'

/-- `ID_DIGITS`: `[0-9]{2,3}`. -/
def idDigits (l : List Char) : Bool :=
  (l.length = 2 || l.length = 3) && l.all fun c => '0' ≤ c ∧ c ≤ '9'

/-- An id is `<machine name>.<two or three digits>`. -/
def idOf (name ident : Name) : Bool :=
  let start := name.toList ++ ['.']
  start.isPrefixOf ident.toList && idDigits (ident.toList.drop start.length)

/-- `_id_problems`. -/
def idProblems (name : Name) (ids : List Name) : List Problem :=
  require (machineName name) (.machineName name) ++
  ids.flatMap (fun i => require (idOf name i) (.idShape i)) ++
  (duplicates ids).map .duplicateId

/-! ## Tree, rows and choices -/

/-- `_all_states`: the states of a tree, in declaration order. -/
def allStates (state : State) : List State := (addState none 0 0 state).map (·.state)

/-- `alphabet`: the chart's events, sorted. -/
def alphabet (chart : Statechart κ υ ω) : List Name :=
  ((chart.rows.map (·.event) ++ chart.timeEvents.map (·.name) ++
      (allStates chart.root).flatMap fun s => s.defer ++ s.wait).dedup.filter
    fun e => e ≠ COMPLETION ∧ e ≠ OVERFLOWED).insertionSort (· ≤ ·)

/-- An action that is named is in the registry. -/
def actionProblems (chart : Statechart κ υ ω) (place action : Name) : List Problem :=
  require (action = "" ∨ (chart.actions action).isSome) (.actionNotInRegistry place action)

/-- `_tree_problems`. -/
def treeProblems (chart : Statechart κ υ ω) : List Problem :=
  (duplicates ((allStates chart.root).map (·.name) ++ chart.choices.map (·.name))).map
    .duplicateName ++
  require (chart.root.final = false) (.rootFinal chart.root.name) ++
  require (chart.clock ≠ .unset) .noClock ++
  (allStates chart.root).flatMap fun state =>
    (state.regions.flatMap fun region =>
      require (region.initial ∈ region.states.map (·.name))
        (.initialNotAState state.name region.name region.initial)) ++
    require (state.final = true → state.regions = [] ∧ state.defer = [] ∧ state.wait = [])
      (.finalWithParts state.name) ++
    actionProblems chart state.name state.entry ++ actionProblems chart state.name state.exit

/-- `_registry_problems`. -/
def registryProblems (chart : Statechart κ υ ω) (place guard action : Name) : List Problem :=
  require (guard = "" ∨ (chart.guards guard).isSome) (.guardNotInRegistry place guard) ++
  actionProblems chart place action

/-- The problems of one row, without those of its registry names. -/
def rowShapeProblems (ix : Index) (row : Row) : List Problem :=
  (if row.source ∉ ix.order then [.sourceNotDeclared row.id row.source]
    else require (ix.final row.source = false) (.finalHasRow row.id row.source)) ++
  require (row.kind = .external → row.target ∈ ix.order ∨ row.target ∈ ix.choices.map (·.name))
    (.targetNotDeclared row.id row.target) ++
  require (row.kind ≠ .external → row.target = "") (.kindHasNoTarget row.id row.kind) ++
  require (row.kind = .ignored ∨ row.kind = .refusal → row.action = "")
    (.kindRunsNoAction row.id row.kind) ++
  require (row.kind = .refusal ↔ row.code ≠ "") (.refusalCode row.id) ++
  require (row.event = COMPLETION → row.kind = .external) (.completionIsExternal row.id) ++
  require (row.event = OVERFLOWED → row.kind = .internal) (.overflowedIsInternal row.id) ++
  require (row.falseUnreachable ≠ "" → row.guard ≠ "") (.falseUnreachable row.id)

/-- `_row_problems`. -/
def rowProblems (chart : Statechart κ υ ω) (ix : Index) : List Problem :=
  chart.rows.flatMap fun row =>
    registryProblems chart row.id row.guard row.action ++ rowShapeProblems ix row

/-- The one else branch of a choice is its last branch. -/
def elseProblems (choice : Choice) : List Problem :=
  let guards := choice.branches.map (·.guard)
  if "" ∉ guards then [.noElseBranch choice.name]
  else require (guards.idxOf "" + 1 = guards.length) (.elseNotOnlyLast choice.name)

/-- `_choice_problems`. -/
def choiceProblems (chart : Statechart κ υ ω) (ix : Index) : List Problem :=
  chart.choices.flatMap fun choice =>
    elseProblems choice ++
    (choice.branches.flatMap fun branch =>
      registryProblems chart branch.id branch.guard branch.action ++
      require (branch.target ∈ ix.order) (.targetNotDeclared branch.id branch.target) ++
      require (branch.falseUnreachable ≠ "" → branch.guard ≠ "") (.falseUnreachable branch.id)) ++
    require (∃ row ∈ chart.rows, row.target = choice.name) (.choiceNotTargeted choice.name)

/-! ## Checks that walk the tree -/

/-- `_sibling_problems`: a row never targets a state in a sibling region. -/
def siblingProblems (chart : Statechart κ υ ω) (ix : Index) : List Problem :=
  (chart.rows.filter (·.kind = .external)).flatMap fun row =>
    (ix.targets row).flatMap fun target =>
      require (ix.crossesRegions row.source target = false)
        (.siblingTarget row.id target row.source)

/-- `_defer_problems`. -/
def deferProblems (chart : Statechart κ υ ω) (ix : Index) : List Problem :=
  let deferring := ((allStates chart.root).filter (·.defer ≠ [])).map (·.name)
  require (deferring ≠ [] → 1 ≤ chart.deferBound ∧ chart.overflow ≠ .unset) .deferBound ++
  (if chart.overflow = .drop then
    deferring.flatMap fun s => require (ix.rowsFor s OVERFLOWED ≠ []) (.noOverflowedRow s)
    else []) ++
  chart.rows.flatMap fun row =>
    require (row.event = OVERFLOWED → ix.defer row.source ≠ [])
      (.overflowedWithoutDefer row.id row.source)

/-- `_wait_problems`: a wait state has a way out on what it awaits, or a reason to stay. -/
def waitProblems (chart : Statechart κ υ ω) (ix : Index) : List Problem :=
  (allStates chart.root).flatMap fun state =>
    require (state.wait = [] ∨ state.stays ≠ "" ∨
        ∃ e ∈ state.wait, ∃ r ∈ ix.rowsFor state.name e, r.kind = .external)
      (.waitWithoutExit state.name (state.wait.insertionSort (· ≤ ·)))

/-- The states that the external rows of one state enter. -/
def enteredFrom (chart : Statechart κ υ ω) (ix : Index) (state : Name) : List Name :=
  (chart.rows.filter fun row => row.source = state ∧ row.kind = .external).flatMap fun row =>
    (ix.targets row).flatMap fun target =>
      ix.entryOrder (ix.entryPath (ix.domain row.source (ix.targets row)).1 target)

/-- The loop of `_reach_problems`: each state is popped from the frontier once. -/
def reach (chart : Statechart κ υ ω) (ix : Index) : Nat → List Name → List Name → List Name
  | 0, reached, _ => reached
  | _ + 1, reached, [] => reached
  | n + 1, reached, state :: frontier =>
    let new := ((enteredFrom chart ix state).filter (· ∉ reached)).dedup
    reach chart ix n (reached ++ new) (new ++ frontier)

/-- `_reach_problems`: every state is entered by the initial entry or by some row. -/
def reachProblems (chart : Statechart κ υ ω) (ix : Index) : List Problem :=
  let first := ix.initialEntry.dedup
  let reached := reach chart ix (ix.order.length + 1) first first
  ix.order.flatMap fun s => require (s ∈ reached) (.notReachable s)

namespace Index

variable (ix : Index)

/-- The hole a region contributes: the first with a leaf that is not final where there is one. -/
def pickHole (holes : List (List Name)) : Option (List Name) :=
  match holes.find? fun h => ¬ h.all ix.final with
  | some h => some h
  | none => holes.head?

/-- `_fall_through`: the innermost states of a configuration below a state where no active state
has a row, a deferral or an exclusion for the event. -/
def fallThroughFrom (event : Name) (excluded : List (Name × Name)) :
    Nat → Name → Option (List Name)
  | 0, _ => none
  | n + 1, state =>
    if ix.rowsFor state event ≠ [] ∨ event ∈ ix.defer state ∨ (state, event) ∈ excluded then none
    else if ix.regions state = [] then some [state]
    else ((ix.regions state).mapM fun region =>
      ix.pickHole (region.states.filterMap fun s => fallThroughFrom event excluded n s.name)).map
        List.flatten

def fallThrough (event : Name) (excluded : List (Name × Name)) (state : Name) :
    Option (List Name) :=
  ix.fallThroughFrom event excluded ix.height state

end Index

/-- The cells a chart excludes whole. -/
def excludedCells (chart : Statechart κ υ ω) : List (Name × Name) :=
  (chart.exclusions.filter (·.partition = "")).map fun x => (x.state, x.event)

def holeProblems (chart : Statechart κ υ ω) (ix : Index) : List Problem :=
  (alphabet chart).flatMap fun event =>
    match ix.fallThrough event (excludedCells chart) ix.root with
    | none => []
    | some hole => require (hole.all ix.final = true) (.fallsThrough event hole)

def exclusionProblems (chart : Statechart κ υ ω) (ix : Index) : List Problem :=
  chart.exclusions.flatMap fun x =>
    if x.reason = "" ∨ x.state ∉ ix.order then [.exclusionIncomplete x]
    else
      match ((ix.state? x.state).map allStates).getD [] |>.filter (·.final) with
      | [] => []
      | final :: _ => [.exclusionOfFinal x final.name]

/-- `well_formed`: the problems with a declaration. -/
def wellFormed (chart : Statechart κ υ ω) : List Problem :=
  let ix := index chart
  let ids := chart.rows.map (·.id) ++ chart.choices.flatMap fun c => c.branches.map (·.id)
  let problems := idProblems chart.name ids ++
    require (INITIAL ∉ alphabet chart) .initialReserved ++
    treeProblems chart ++ rowProblems chart ix ++ choiceProblems chart ix
  if problems ≠ [] then problems
  else siblingProblems chart ix ++ deferProblems chart ix ++ waitProblems chart ix ++
    reachProblems chart ix ++ holeProblems chart ix ++ exclusionProblems chart ix

/-! ## What a chart without problems has -/

/-- What the executor relies on. -/
structure WellFormed (chart : Statechart κ υ ω) : Prop where
  sound : (index chart).Sound
  initials : (index chart).InitialsDeclared
  rowsNodup : chart.rows.Nodup
  guard : ∀ row ∈ chart.rows, row.guard = "" ∨ (chart.guards row.guard).isSome
  source : ∀ row ∈ chart.rows, row.source ∈ (index chart).order
  targets : ∀ row ∈ chart.rows, row.kind = .external → ∀ t ∈ (index chart).targets row,
    t ∈ (index chart).order ∧ (index chart).crossesRegions row.source t = false
  finalRow : ∀ row ∈ chart.rows, (index chart).final row.source = false
  finalParts : ∀ s ∈ (index chart).order, (index chart).final s = true →
    (index chart).regions s = [] ∧ (index chart).defer s = []
  noHole : ∀ event ∈ alphabet chart, ∀ hole,
    (index chart).fallThrough event (excludedCells chart) (index chart).root = some hole →
    hole.all (index chart).final = true

theorem state_of_order {chart : Statechart κ υ ω} (hs : (index chart).Sound) {s : Name}
    (h : s ∈ (index chart).order) :
    ∃ state ∈ allStates chart.root, state.name = s ∧ (index chart).state? s = some state := by
  obtain ⟨e, he, rfl⟩ := Index.exists_entry h
  exact ⟨e.state, List.mem_map_of_mem he, rfl, Index.state?_entry hs he⟩

theorem mem_targets {chart : Statechart κ υ ω} {row : Row} {t : Name}
    (hrow : row.target ∈ (index chart).order ∨ row.target ∈ chart.choices.map (·.name))
    (hbranch : ∀ choice ∈ chart.choices, ∀ branch ∈ choice.branches,
      branch.target ∈ (index chart).order)
    (ht : t ∈ (index chart).targets row) : t ∈ (index chart).order := by
  unfold Index.targets at ht
  split at ht
  next hc =>
    rw [List.mem_singleton] at ht
    subst ht
    refine hrow.resolve_right fun hm => ?_
    obtain ⟨c, hcm, hcn⟩ := List.mem_map.mp hm
    have := List.find?_eq_none.mp hc c (List.mem_reverse.mpr hcm)
    simp [hcn] at this
  next choice hc =>
    obtain ⟨branch, hb, rfl⟩ := List.mem_map.mp ht
    exact hbranch choice (List.mem_reverse.mp (List.mem_of_find?_eq_some hc)) branch hb

/-- **A chart without problems has what the executor relies on.** -/
theorem WellFormed.of_nil {chart : Statechart κ υ ω} (h : wellFormed chart = []) :
    WellFormed chart := by
  unfold wellFormed at h
  simp only at h
  split at h
  next hne => exact absurd h hne
  next hnil =>
    simp only [ne_eq, Decidable.not_not, List.append_eq_nil_iff] at hnil h
    obtain ⟨⟨⟨⟨hids, -⟩, htree⟩, hrows⟩, hchoices⟩ := hnil
    obtain ⟨⟨⟨⟨⟨hsib, -⟩, -⟩, -⟩, hhole⟩, -⟩ := h
    simp only [treeProblems, List.append_eq_nil_iff, List.map_eq_nil_iff, duplicates_eq_nil,
      List.flatMap_eq_nil_iff, require_eq_nil] at htree
    obtain ⟨⟨⟨hnodup, -⟩, -⟩, hstates⟩ := htree
    simp only [idProblems, List.append_eq_nil_iff, List.map_eq_nil_iff, duplicates_eq_nil] at hids
    simp only [rowProblems, rowShapeProblems, registryProblems, List.flatMap_eq_nil_iff, List.append_eq_nil_iff,
      require_eq_nil] at hrows
    simp only [choiceProblems, List.flatMap_eq_nil_iff, List.append_eq_nil_iff,
      require_eq_nil] at hchoices
    simp only [siblingProblems, List.flatMap_eq_nil_iff, List.mem_filter, decide_eq_true_eq,
      require_eq_nil, and_imp] at hsib
    have hord : (index chart).order.Nodup := by
      have : (index chart).order = (allStates chart.root).map (·.name) := by
        simp [Index.order, index, allStates, Entry.name, Function.comp_def]
      rw [this]
      exact (List.nodup_append.mp hnodup).1
    have hs := Index.sound_index hord
    have hsource : ∀ row ∈ chart.rows, row.source ∈ (index chart).order ∧
        (index chart).final row.source = false := by
      intro row hr
      have := (hrows row hr).2.1.1.1.1.1.1.1
      split at this
      next => cases this
      next hm => exact ⟨by simpa using hm, require_eq_nil.mp this⟩
    have hnd : chart.rows.Nodup := List.Nodup.of_map _ (List.nodup_append.mp hids.2).1
    refine ⟨hs, ?_, hnd, fun row hr => (hrows row hr).1.1, fun row hr => (hsource row hr).1, ?_, fun row hr => (hsource row hr).2, ?_, ?_⟩
    · intro s hsm r hr
      obtain ⟨state, hst, -, hlook⟩ := state_of_order hs hsm
      rw [Index.regions, hlook] at hr
      exact (hstates state hst).1.1.1 r hr
    · intro row hr hk t ht
      refine ⟨mem_targets ((hrows row hr).2.1.1.1.1.1.1.2 hk) ?_ ht, hsib row hr hk t ht⟩
      exact fun c hc b hb => ((hchoices c hc).1.2 b hb).1.2
    · intro s hsm hf
      obtain ⟨state, hst, -, hlook⟩ := state_of_order hs hsm
      simp only [Index.final, Index.regions, Index.defer, hlook, Option.map_some,
        Option.getD_some] at hf ⊢
      have := (hstates state hst).1.1.2 hf
      exact ⟨this.1, this.2.1⟩
    · intro event hev hole hf
      have := List.flatMap_eq_nil_iff.mp hhole event hev
      rw [hf] at this
      exact require_eq_nil.mp this

end Dsl41.StateMachine
