import Dsl41.Infra.Result
import Dsl41.StateMachine.Executor

/-!
# Flat charts

A flat chart has one region of leaves under its root, and no guard, choice, deferral, entry or
exit action. An event for an instance of it is a look into a table: the row of the leaf and the
event, if there is one, is the firing set (`select_flat`), and a posted event is one microstep
(`dispatch_flat`).
-/

namespace Dsl41.StateMachine

variable {κ υ ω : Type} {chart : Statechart κ υ ω} {leaves : List Name} {s : Name} {row : Row}

/-! ## The table -/

/-- The configuration of a leaf. -/
def Statechart.rest (chart : Statechart κ υ ω) (leaf : Name) : Finset Name := {chart.root.name, leaf}

/-- The row of a leaf for an event. -/
def Statechart.row? (chart : Statechart κ υ ω) (leaf event : Name) : Option Row :=
  chart.rows.find? fun r => r.source = leaf ∧ r.event = event

/-- One region of leaves under the root, with plain rows between them. -/
structure Flat (chart : Statechart κ υ ω) (leaves : List Name) : Prop where
  root : chart.root.name ∉ leaves
  leaf : ∀ s ∈ leaves, (index chart).leaves (chart.rest s) = [s]
  path : ∀ s ∈ leaves, (index chart).path s = [s, chart.root.name]
  plain : ∀ s ∈ chart.root.name :: leaves, (index chart).defer s = [] ∧
    (((index chart).state? s).map (·.entry)).getD "" = "" ∧ (((index chart).state? s).map (·.exit)).getD "" = ""
  rows : ∀ row ∈ chart.rows, row.source ∈ leaves ∧ row.guard = "" ∧ row.event ≠ COMPLETION
  moves : ∀ row ∈ chart.rows, row.kind = .external → row.target ∈ leaves ∧
    ((index chart).plan row).exits (index chart) (chart.rest row.source) = .ok [row.source] ∧
    ((index chart).plan row).entryOf (index chart) row.target = [row.target]
  single : (chart.rows.map fun r => (r.source, r.event)).Nodup
  choices : chart.choices = []
  regions : (index chart).regions chart.root.name ≠ []
  parents : ∀ s ∈ chart.root.name :: leaves,
    (index chart).parent s = if s = chart.root.name then none else some chart.root.name
  actions : ∀ row ∈ chart.rows, row.action ≠ "" → ∃ act, chart.actions row.action = some act ∧
    ∀ ctx w fx, (act ctx w).1 = some fx → fx.send = [] ∧ fx.andThen = "" ∧ ∀ t ∈ fx.rearm, t ∈ (index chart).generational

/-! ## Selection -/

/-- A list that holds a property at most once holds it where it is found first. -/
theorem filter_eq_find? {α β : Type} {f : α → β} {p : α → Bool} {l : List α} (h : (l.map f).Nodup)
    (hp : ∀ a ∈ l, ∀ b ∈ l, p a → p b → f a = f b) : l.filter p = (l.find? p).toList := by
  induction l with
  | nil => rfl
  | cons a l ih =>
    rw [List.map_cons, List.nodup_cons] at h
    have hrest := ih h.2 fun x hx y hy => hp x (List.mem_cons_of_mem _ hx) y (List.mem_cons_of_mem _ hy)
    cases ha : p a with
    | false => simpa [List.filter_cons, List.find?_cons, ha] using hrest
    | true =>
      have hnone : l.filter p = [] := by
        rw [List.filter_eq_nil_iff]
        intro b hb hpb
        exact h.1 (List.mem_map.mpr ⟨b, hb, hp b (List.mem_cons_of_mem _ hb) a List.mem_cons_self hpb ha⟩)
      simp [ha, hnone]

theorem Flat.rowsFor (h : Flat chart leaves) (event : Name) :
    (index chart).rowsFor s event = (chart.row? s event).toList := by
  refine filter_eq_find? h.single fun a _ b _ ha hb => ?_
  simp only [decide_eq_true_eq] at ha hb
  rw [ha.1, ha.2, hb.1, hb.2]

theorem row?_some {event : Name} (h : chart.row? s event = some row) :
    row ∈ chart.rows ∧ row.source = s ∧ row.event = event := by
  have hp := List.find?_some h
  simp only [decide_eq_true_eq] at hp
  exact ⟨List.mem_of_find?_eq_some h, hp⟩

theorem Flat.enabled (h : Flat chart leaves) {event : Name} (ctx : Context κ υ) (w : ω) :
    enabled chart (index chart) s event ctx w = .ok (chart.row? s event) := by
  unfold StateMachine.enabled
  rw [h.rowsFor]
  cases hrow : chart.row? s event with
  | none => rfl
  | some row =>
    have hguard := (h.rows row (row?_some hrow).1).2.1
    simp only [Option.toList_some, heldRows, holds, hguard]
    rfl

theorem Flat.rootless (h : Flat chart leaves) (event : Name) : chart.row? chart.root.name event = none := by
  cases hrow : chart.row? chart.root.name event with
  | none => rfl
  | some row =>
    obtain ⟨hmem, hsource, -⟩ := row?_some hrow
    exact absurd (hsource ▸ (h.rows row hmem).1) h.root

/-- The exits of a row alone. -/
theorem Flat.exitSet (h : Flat chart leaves) (hmem : row ∈ chart.rows) :
    ∃ set, exitSet (index chart) (chart.rest row.source) row = .ok set := by
  by_cases hkind : row.kind = .external
  · refine ⟨{row.source}, ?_⟩
    rw [StateMachine.exitSet, if_neg (not_not.mpr hkind), (h.moves row hmem hkind).2.1]
    rfl
  · exact ⟨∅, by rw [StateMachine.exitSet, if_pos hkind]⟩

/-- **The firing set is the row of the leaf and the event, if there is one.** -/
theorem Flat.select (h : Flat chart leaves) (hs : s ∈ leaves) (ctx : Context κ υ) (w : ω) :
    select chart (index chart) (chart.rest s) ctx w = .ok ((chart.row? s ctx.event.name).toList, []) := by
  have hwalk : walk chart (index chart) ctx w ((index chart).path s) =
      .ok ((chart.row? s ctx.event.name).elim .nothing .row) := by
    rw [h.path s hs]
    simp only [walk, h.enabled, h.rootless, Infra.ok_bind]
    cases chart.row? s ctx.event.name with
    | some row => rfl
    | none =>
      simp only [(h.plain s (List.mem_cons_of_mem _ hs)).1, (h.plain _ List.mem_cons_self).1, List.not_mem_nil, if_false,
        Option.elim_none]
  rw [StateMachine.select, h.leaf s hs]
  simp only [gather, hwalk, Infra.ok_bind]
  cases hrow : chart.row? s ctx.event.name with
  | none => rfl
  | some row =>
    obtain ⟨hmem, hsource, -⟩ := row?_some hrow
    obtain ⟨set, hset⟩ := h.exitSet hmem
    rw [hsource] at hset
    have hyielded : yielded [row] = .ok [row] := by
      unfold yielded
      cases hkind : row.kind <;> simp [refusalAlone, hkind]
    have hsets : exitSets (index chart) (chart.rest s) [row] = .ok [(row, set)] := by
      simp only [exitSets, List.mapM_cons, List.mapM_nil, hset]
      rfl
    have hconflicts : withoutConflicts (index chart) (chart.rest s) [row] = .ok [row] := by
      have hdepths : ((([row].map fun r => (index chart).depth r.source).dedup).insertionSort (· ≥ ·)) =
          [(index chart).depth row.source] := rfl
      have hkept : keepDepth (index chart) [(row, set)] [] ((index chart).depth row.source) = .ok [(row, set)] := by
        simp [keepDepth, firstMeeting]
      simp only [withoutConflicts, hsets, Infra.ok_bind, hdepths, List.foldlM_cons, List.foldlM_nil, hkept]
      simp
      rfl
    have hexited : withoutExitedSources (index chart) (chart.rest s) [row] = .ok [row] := by
      simp only [withoutExitedSources, hsets, Infra.ok_bind]
      simp
      rfl
    simp [hyielded, hconflicts, hexited, Infra.ok_bind]

/-! ## One microstep -/

/-- What a row's action reports, and the world it leaves. -/
def Statechart.act (chart : Statechart κ υ ω) (row : Row) (ctx : Context κ υ) (w : ω) : Effects κ υ × ω :=
  match if row.action = "" then none else chart.actions row.action with
  | some act => ((act ctx w).1.getD {}, (act ctx w).2)
  | none => ({}, w)

/-- The generations once some timers are re-armed. -/
def rearmed (timers : List Name) (generations : Name → Int) : Name → Int :=
  timers.foldl (fun g t => Function.update g t (g t + 1)) generations

/-- The leaf a row leads to. -/
def Row.next (row : Row) : Name := if row.kind = .external then row.target else row.source

/-- An instance in a leaf. -/
structure Resting (c : Statechart κ υ ω) (leaf : Name) (inst : Instance κ υ ω) : Prop where
  chart : inst.chart = c
  active : inst.active = c.rest leaf
  deferred : inst.deferred = []

section Microstep

variable [DecidableEq κ] {r : Records κ υ ω} {key : κ} {inst : Instance κ υ ω}

theorem rearmAll_flat : ∀ {timers : List Name} {r : Records κ υ ω} {inst : Instance κ υ ω},
    (∀ t ∈ timers, t ∈ (index chart).generational) → r.instances key = some inst →
    rearmAll chart key timers r = .ok { r with
      instances := Function.update r.instances key (some { inst with generations := rearmed timers inst.generations }) }
  | [], r, inst, _, hi => by
    have hsame : Function.update r.instances key (some inst) = r.instances := by rw [← hi, Function.update_eq_self]
    show Except.ok r = .ok { r with instances := Function.update r.instances key (some inst) }
    rw [hsame]
  | timer :: timers, r, inst, ht, hi => by
    have hget : r.get key = .ok inst := by rw [Records.get, hi]
    rw [rearmAll, if_neg (not_not.mpr (ht timer List.mem_cons_self)), hget]
    simp only [Infra.ok_bind]
    have hrest := rearmAll_flat (r := r.write key
        { inst with generations := Function.update inst.generations timer (inst.generations timer + 1) })
      (fun t h => ht t (List.mem_cons_of_mem _ h)) (Function.update_self _ _ _)
    refine hrest.trans ?_
    simp only [Records.write, Function.update_idem]
    rfl

/-- The records once an instance's timers are re-armed and the world is another. -/
def Records.acted (r : Records κ υ ω) (key : κ) (inst : Instance κ υ ω) (timers : List Name) (w : ω) :
    Records κ υ ω :=
  { r with
    instances := Function.update r.instances key (some { inst with generations := rearmed timers inst.generations })
    world := w }

/-- A row's action writes the world, its intents and the generations. -/
theorem Flat.call (h : Flat chart leaves) (step : Microstep κ υ) (hmem : row ∈ chart.rows) (hi : r.instances key = some inst)
    (hc : inst.chart = chart) (hkey : step.item.key = key) {fx : Effects κ υ} {w : ω}
    (hact : chart.act row (context inst step.item) r.world = (fx, w)) :
    call r step row.action = .ok (r.acted key inst fx.rearm w, { step with intents := step.intents ++ fx.intents }) := by
  have hsame : Function.update r.instances key (some inst) = r.instances := by rw [← hi, Function.update_eq_self]
  by_cases hname : row.action = ""
  · rw [Statechart.act, if_pos hname] at hact
    cases hact
    rw [StateMachine.call, if_pos hname, Records.acted]
    simp [rearmed, hsame]
  · obtain ⟨act, hnamed, hplain⟩ := h.actions row hmem hname
    have hget : r.get step.item.key = .ok inst := by rw [hkey, Records.get, hi]
    rw [Statechart.act, if_neg hname, hnamed] at hact
    rw [StateMachine.call, if_neg hname]
    dsimp only
    rw [hget]
    simp only [Infra.ok_bind, hc, hnamed]
    dsimp only at hact
    rcases hres : act (context inst step.item) r.world with ⟨effects, world⟩
    rw [hres] at hact
    dsimp only
    cases effects with
    | none =>
      cases hact
      simp only [Records.acted, rearmed, Option.getD_none, List.foldl_nil, hsame, List.append_nil]
      rfl
    | some fx' =>
      cases hact
      obtain ⟨hsend, hthen, htimers⟩ := hplain _ _ _ (congrArg Prod.fst hres)
      have hrearm := rearmAll_flat (r := { r with world }) htimers hi
      simp only [hsend, hthen, hkey, reportSends, Infra.ok_bind, if_true, hrearm]
      rfl

/-- What a row makes of an instance's context: it acts between its exits and its entries. -/
def Row.context (chart : Statechart κ υ ω) (row : Row) (inst : Instance κ υ ω) (item : Item κ υ) : Context κ υ :=
  { StateMachine.context inst item with
    active := if row.kind = .external then {chart.root.name} else chart.rest row.source }

/-- What the run of one row leaves: the instance in the row's next leaf. -/
structure Row.Runs (chart : Statechart κ υ ω) (key : κ) (row : Row) (inst : Instance κ υ ω) (fx : Effects κ υ)
    (w : ω) (r r' : Records κ υ ω) : Prop where
  instances : ∃ inst', r'.instances = Function.update r.instances key (some inst') ∧
    Resting chart row.next inst' ∧ inst'.data = inst.data ∧ inst'.generations = rearmed fx.rearm inst.generations
  deferring : r'.deferring = r.deferring
  world : r'.world = w

theorem call_unnamed (r : Records κ υ ω) (step : Microstep κ υ) : StateMachine.call r step "" = .ok (r, step) := if_pos rfl

/-- **A row runs: its exit, its action, its entry.** -/
theorem Flat.runRow (h : Flat chart leaves) {item : Item κ υ} (hmem : row ∈ chart.rows)
    (hi : r.instances item.key = some inst) (hr : Resting chart row.source inst) {fx : Effects κ υ} {w : ω}
    (hact : chart.act row (row.context chart inst item) r.world = (fx, w)) :
    ∃ r' step, runRow r { item } row = .ok (r', step) ∧ row.Runs chart item.key inst fx w r r' ∧
      step.intents = fx.intents ∧ step.reported = [] ∧ step.continuations = [] := by
  have hget : r.get item.key = .ok inst := by rw [Records.get, hi]
  by_cases hkind : row.kind = .external
  · obtain ⟨htarget, hexits, hentry⟩ := h.moves row hmem hkind
    have hexit := (h.plain row.source (List.mem_cons_of_mem _ (h.rows row hmem).1)).2.2
    have henter := (h.plain row.target (List.mem_cons_of_mem _ htarget)).2.1
    have hchoice : (index chart).choice? row.target = none := by
      show (chart.choices.reverse.find? _) = none
      rw [h.choices]
      rfl
    have herase : (chart.rest row.source).erase row.source = {chart.root.name} := by
      have hne : chart.root.name ≠ row.source := fun hroot => h.root (hroot ▸ (h.rows row hmem).1)
      rw [Statechart.rest, Finset.pair_comm, Finset.erase_insert (by simpa using hne.symm)]
    let inst₁ : Instance κ υ ω := { inst with active := {chart.root.name} }
    let r₁ : Records κ υ ω := r.write item.key inst₁
    have hleft : exitStates (index chart) [row.source] r { item } = .ok (r₁, { item, left := [row.source] }) := by
      simp only [exitStates, hexit, call_unnamed, Infra.ok_bind, hget, hr.active, herase]
      rfl
    have hcontext : row.context chart inst item = context inst₁ item := by
      rw [Row.context, if_pos hkind]
      rfl
    rw [hcontext] at hact
    have hcall := h.call (r := r₁) { item, left := [row.source] } hmem (Function.update_self ..) hr.chart rfl hact
    have hacted : (r₁.acted item.key inst₁ fx.rearm w).get item.key =
        .ok { inst₁ with generations := rearmed fx.rearm inst₁.generations } := by
      rw [Records.get, Records.acted]
      simp only [Function.update_self]
    simp only [StateMachine.runRow, hget, Infra.ok_bind, hr.chart, hkind, ne_eq, not_true_eq_false, if_false, hr.active,
      hexits, hleft, hcall, hchoice, hentry, enterStates, henter, call_unnamed, hacted]
    refine ⟨_, _, rfl, ?_⟩
    refine ⟨⟨?_, rfl, rfl⟩, rfl, rfl, rfl⟩
    simp only [Records.acted, Records.write, r₁, Function.update_idem]
    refine ⟨_, rfl, ⟨hr.chart, ?_, hr.deferred⟩, rfl, rfl⟩
    rw [Row.next, if_pos hkind, Statechart.rest]
    exact Finset.pair_comm _ _
  · have hcontext : row.context chart inst item = context inst item := by
      rw [Row.context, if_neg hkind, ← hr.active]
      rfl
    rw [hcontext] at hact
    have hcall := h.call { item } hmem hi hr.chart rfl hact
    simp only [StateMachine.runRow, hget, Infra.ok_bind, if_pos hkind, hcall]
    refine ⟨_, _, rfl, ?_⟩
    refine ⟨⟨⟨_, rfl, ⟨hr.chart, ?_, hr.deferred⟩, rfl, rfl⟩, rfl, rfl⟩, rfl, rfl, rfl⟩
    rw [Row.next, if_neg hkind]
    exact hr.active

omit [DecidableEq κ] in
theorem Flat.completes_nothing (h : Flat chart leaves) (active : Finset Name) (entered states : List Name) :
    completedStates (index chart) active entered states = states := by
  have hnone : ∀ state, (index chart).rowsFor state COMPLETION = [] := by
    intro state
    refine List.filter_eq_nil_iff.mpr fun row hmem hrow => ?_
    simp only [decide_eq_true_eq] at hrow
    exact (h.rows row hmem).2.2 hrow.2
  induction entered generalizing states with
  | nil => rfl
  | cons state entered ih =>
    rw [completedStates]
    split
    · rw [if_neg (by simp [hnone]), ih]
    · exact ih states

/-- What the microstep of one row leaves. -/
structure Row.Fired (chart : Statechart κ υ ω) (key : κ) (row : Row) (inst : Instance κ υ ω) (fx : Effects κ υ)
    (w : ω) (r : Records κ υ ω) (ran : Ran κ υ ω) : Prop extends row.Runs chart key inst fx w r ran.1 where
  intents : ran.2.1.intents = fx.intents
  order : ran.2.2.order = []

theorem Flat.fire (h : Flat chart leaves) {item : Item κ υ} (hmem : row ∈ chart.rows)
    (hi : r.instances item.key = some inst) (hr : Resting chart row.source inst) {fx : Effects κ υ} {w : ω}
    (hact : chart.act row (row.context chart inst item) r.world = (fx, w)) :
    ∃ ran, fire r item [row] .fired = .ok ran ∧ row.Fired chart item.key inst fx w r ran := by
  obtain ⟨r', step, hrun, hran, hintents, hreported, hcontinuations⟩ := h.runRow hmem hi hr hact
  obtain ⟨inst', hinst, hrest, -, -⟩ := hran.instances
  have hget : r.get item.key = .ok inst := by rw [Records.get, hi]
  have hget' : r'.get item.key = .ok inst' := by rw [Records.get, hinst, Function.update_self]
  have hcompletions : completions (index inst'.chart) inst' step = [] := by
    rw [completions, hrest.chart, h.completes_nothing]
    rfl
  simp only [StateMachine.fire, hget, Infra.ok_bind, reduceCtorEq, if_false, runRows, hrun, hget']
  refine ⟨_, rfl, hran, hintents, ?_⟩
  rw [Queued.order, hreported, hcontinuations, hr.chart, ← hrest.chart, hcompletions]
  rfl

/-- What an event does to an instance in a leaf: a stale one nothing, one with a row its row, and
one with none is ignored in a final leaf and raises elsewhere. -/
inductive Taken (chart : Statechart κ υ ω) (s : Name) (inst : Instance κ υ ω) (item : Item κ υ) (r : Records κ υ ω) :
    Except StatechartError (Ran κ υ ω) → Prop
  | stale (h : stale inst item.event = true) : Taken chart s inst item r (.ok (r, outcome item .discarded, {}))
  | fired {row : Row} {fx : Effects κ υ} {w : ω} {ran : Ran κ υ ω} (h : StateMachine.stale inst item.event = false)
      (hrow : chart.row? s item.event.name = some row)
      (hact : chart.act row (row.context chart inst item) r.world = (fx, w))
      (hran : row.Fired chart item.key inst fx w r ran) : Taken chart s inst item r (.ok ran)
  | final {ran : Ran κ υ ω} (h : StateMachine.stale inst item.event = false)
      (hrow : chart.row? s item.event.name = none) (hs : (index chart).final s = true) (hr : ran.1 = r)
      (hintents : ran.2.1.intents = []) (hq : ran.2.2.order = []) : Taken chart s inst item r (.ok ran)
  | unhandled (h : StateMachine.stale inst item.event = false) (hrow : chart.row? s item.event.name = none)
      (hs : (index chart).final s = false) :
      Taken chart s inst item r (.error (.unhandledEvent item.event.name [s]))

/-- **An event's microstep is a look into the table.** -/
theorem Flat.microstep (h : Flat chart leaves) (item : Item κ υ) (hs : s ∈ leaves) (hkind : item.kind = .event)
    (hi : r.instances item.key = some inst) (hr : Resting chart s inst) :
    Taken chart s inst item r (microstep r item) := by
  have hget : r.get item.key = .ok inst := by rw [Records.get, hi]
  have hselect : StateMachine.select chart (index chart) (chart.rest s) (context inst item) r.world =
      .ok ((chart.row? s item.event.name).toList, []) := h.select hs _ _
  have hdecided : StateMachine.stale inst item.event = false →
      decideItem inst item (context inst item) r.world = (chart.row? s item.event.name).elim
        (if (index chart).final s then .ok (.fired []) else .error (.unhandledEvent item.event.name [s]))
        fun row => .ok (.fired [row]) := by
    intro hstale
    rw [decideItem, hstale]
    simp only [Bool.false_eq_true, if_false, hr.chart, hr.active, hselect, Infra.ok_bind]
    cases chart.row? s item.event.name with
    | some row => rfl
    | none =>
      cases hfinal : (index chart).final s with
      | true => simp [Index.finalLeaves, h.leaf s hs, hfinal]; rfl
      | false => simp [Index.finalLeaves, h.leaf s hs, hfinal]; rfl
  cases hstale : StateMachine.stale inst item.event with
  | true =>
    have hdecide : decideItem inst item (context inst item) r.world = .ok .discarded := by
      rw [decideItem, hstale]
      rfl
    simp only [StateMachine.microstep, hget, Infra.ok_bind, hkind, hdecide]
    exact .stale hstale
  | false =>
    have hdecide := hdecided hstale
    cases hrow : chart.row? s item.event.name with
    | some row =>
      obtain ⟨hmem, hsource, -⟩ := row?_some hrow
      rcases hact : chart.act row (row.context chart inst item) r.world with ⟨fx, w⟩
      obtain ⟨ran, hfire, hran⟩ := h.fire hmem hi (hsource ▸ hr) hact
      rw [hrow, Option.elim_some] at hdecide
      simp only [StateMachine.microstep, hget, Infra.ok_bind, hkind, hdecide, hfire]
      exact .fired hstale hrow hact hran
    | none =>
      rw [hrow, Option.elim_none] at hdecide
      cases hfinal : (index chart).final s with
      | true =>
        simp only [hfinal, if_true] at hdecide
        simp only [StateMachine.microstep, hget, Infra.ok_bind, hkind, hdecide, StateMachine.fire, reduceCtorEq, if_false,
          runRows]
        exact .final hstale hrow hfinal rfl rfl rfl
      | false =>
        simp only [hfinal] at hdecide
        simp only [StateMachine.microstep, hget, Infra.ok_bind, hkind, hdecide]
        exact .unhandled hstale hrow hfinal

end Microstep

/-! ## One macrostep -/

/-- Nothing is left to handle. -/
structure Executor.Idle (x : Executor κ υ ω) : Prop where
  pool : x.pool = []
  worklist : x.worklist = []
  deferring : x.records.deferring = []

section Macrostep

variable [DecidableEq κ] {x : Executor κ υ ω} {key : κ} {inst : Instance κ υ ω} {item : Item κ υ}

/-- A run with fuel for one item that queues nothing. -/
def Executor.drain (x : Executor κ υ ω) : Except StatechartError (Option (Executor κ υ ω × List (Outcome κ υ))) :=
  x.run (fun _ r => r.world) 3

/-- `dispatch`: post an event and run it. -/
def Executor.dispatch (x : Executor κ υ ω) (key : κ) (event : Event υ) :
    Except StatechartError (Option (Executor κ υ ω × List (Outcome κ υ))) := do
  (← x.post key event).drain

theorem turn_idle (h : x.Idle) : x.turn (fun _ r => r.world) = .ok none := by
  have hnone : release x.records = .ok none := by
    rw [release, Records.releaseOrder, h.deferring]
    rfl
  simp only [Executor.turn, h.worklist, h.pool, hnone]
  rfl

theorem turn_pooled (hw : x.worklist = []) (hd : x.records.deferring = []) (hp : x.pool = [item]) :
    x.turn (fun _ r => r.world) = .ok (some ({ x with pool := [], worklist := [item] }, none)) := by
  have hnone : release x.records = .ok none := by
    rw [release, Records.releaseOrder, hd]
    rfl
  simp only [Executor.turn, hw, hp, hnone]
  rfl

/-- The one item of the pool runs alone when it queues nothing. -/
theorem drain_one {ran : Ran κ υ ω} (hw : x.worklist = []) (hd : x.records.deferring = []) (hp : x.pool = [item])
    (hstep : microstep x.records item = .ok ran) (hq : ran.2.2.order = []) (hr : ran.1.deferring = []) :
    x.drain = .ok (some ({ records := ran.1 }, [ran.2.1])) := by
  have hsecond : Executor.turn (fun _ r => r.world) { x with pool := [], worklist := [item] } =
      .ok (some ({ records := ran.1 }, some ran.2.1)) := by
    simp only [Executor.turn, Executor.step, hstep, Infra.ok_bind, hq]
    rfl
  have hthird : Executor.turn (fun _ r => r.world) ({ records := ran.1 } : Executor κ υ ω) = .ok none :=
    turn_idle ⟨rfl, rfl, hr⟩
  simp only [Executor.drain, Executor.run, turn_pooled hw hd hp, Infra.ok_bind]
  rw [hsecond]
  simp only [Infra.ok_bind, hthird]
  rfl

theorem drain_raises {e : StatechartError} (hw : x.worklist = []) (hd : x.records.deferring = []) (hp : x.pool = [item])
    (hstep : microstep x.records item = .error e) : x.drain = .error e := by
  have hsecond : Executor.turn (fun _ r => r.world) { x with pool := [], worklist := [item] } = .error e := by
    simp only [Executor.turn, Executor.step, hstep]
    rfl
  simp only [Executor.drain, Executor.run, turn_pooled hw hd hp, Infra.ok_bind]
  rw [hsecond]
  rfl

/-- The item of a posted event. -/
def Event.posted (key : κ) (event : Event υ) : Item κ υ := { key, kind := .event, event }

/-- **A posted event is one microstep.** -/
theorem Flat.dispatch (h : Flat chart leaves) {event : Event υ} (hx : x.Idle) (hs : s ∈ leaves)
    (hi : x.records.instances key = some inst) (hr : Resting chart s inst) (hpost : checkEvent chart event = .ok ()) :
    ∃ result, Taken chart s inst (event.posted key) x.records result ∧
      x.dispatch key event = result.map fun ran => some ({ records := ran.1 }, [ran.2.1]) := by
  have hpooled : x.post key event = .ok { x with pool := [event.posted key] } := by
    have hget : x.records.get key = .ok inst := by rw [Records.get, hi]
    rw [Executor.post, hget]
    simp only [Infra.ok_bind, hr.chart, hpost, hx.pool]
    rfl
  have htaken := h.microstep (event.posted key) hs rfl hi hr
  refine ⟨_, htaken, ?_⟩
  rw [Executor.dispatch, hpooled, Infra.ok_bind]
  generalize hresult : StateMachine.microstep x.records (event.posted key) = result at htaken
  cases htaken with
  | stale h => exact drain_one hx.worklist hx.deferring rfl hresult rfl hx.deferring
  | fired _ _ _ hran =>
    exact drain_one hx.worklist hx.deferring rfl hresult hran.order (hran.deferring.trans hx.deferring)
  | final _ _ _ hsame _ hq => exact drain_one hx.worklist hx.deferring rfl hresult hq (hsame ▸ hx.deferring)
  | unhandled => exact drain_raises hx.worklist hx.deferring rfl hresult

omit [DecidableEq κ] in
theorem Executor.Idle.eq (h : x.Idle) : ({ records := x.records } : Executor κ υ ω) = x := by
  cases x
  cases h
  simp_all

section Dispatch

variable {event : Event υ} (h : Flat chart leaves) (hx : x.Idle) (hs : s ∈ leaves)
  (hi : x.records.instances key = some inst) (hr : Resting chart s inst) (hpost : checkEvent chart event = .ok ())

include h hx hs hi hr hpost

theorem Flat.dispatch_stale (hstale : stale inst event = true) :
    ∃ out, x.dispatch key event = .ok (some (x, [out])) ∧ out.intents = [] := by
  obtain ⟨result, htaken, hdispatch⟩ := h.dispatch hx hs hi hr hpost
  rw [hdispatch]
  cases htaken with
  | stale => exact ⟨_, by rw [← hx.eq]; rfl, rfl⟩
  | fired hnot => exact absurd (hstale.symm.trans hnot) nofun
  | final hnot => exact absurd (hstale.symm.trans hnot) nofun
  | unhandled hnot => exact absurd (hstale.symm.trans hnot) nofun

/-- An event with a row is that row's microstep. -/
theorem Flat.dispatch_fired (hstale : stale inst event = false) (hrow : chart.row? s event.name = some row)
    {fx : Effects κ υ} {w : ω}
    (hact : chart.act row (row.context chart inst (event.posted key)) x.records.world = (fx, w)) :
    ∃ x' out, x.dispatch key event = .ok (some (x', [out])) ∧ out.intents = fx.intents ∧ x'.Idle ∧
      row.Runs chart key inst fx w x.records x'.records := by
  obtain ⟨result, htaken, hdispatch⟩ := h.dispatch hx hs hi hr hpost
  rw [hdispatch]
  cases htaken with
  | stale hnot => exact absurd (hnot.symm.trans hstale) nofun
  | fired _ hrow' hact' hran =>
    obtain rfl := Option.some.inj (hrow'.symm.trans hrow)
    obtain ⟨rfl, rfl⟩ := Prod.mk.inj (hact'.symm.trans hact)
    exact ⟨_, _, rfl, hran.intents, ⟨rfl, rfl, hran.deferring.trans hx.deferring⟩, hran.toRuns⟩
  | final _ hnone => exact absurd (hnone.symm.trans hrow) nofun
  | unhandled _ hnone => exact absurd (hnone.symm.trans hrow) nofun

/-- An event with no row changes nothing in a final leaf. -/
theorem Flat.dispatch_final (hstale : stale inst event = false) (hrow : chart.row? s event.name = none)
    (hfinal : (index chart).final s = true) : ∃ out, x.dispatch key event = .ok (some (x, [out])) ∧ out.intents = [] := by
  obtain ⟨result, htaken, hdispatch⟩ := h.dispatch hx hs hi hr hpost
  rw [hdispatch]
  cases htaken with
  | stale hnot => exact absurd (hnot.symm.trans hstale) nofun
  | fired _ hrow' => exact absurd (hrow.symm.trans hrow') nofun
  | final _ _ _ hsame hintents => exact ⟨_, by rw [← hx.eq, ← hsame]; rfl, hintents⟩
  | unhandled _ _ hnot => exact absurd (hnot.symm.trans hfinal) nofun

/-- An event with no row raises elsewhere. -/
theorem Flat.dispatch_unhandled (hstale : stale inst event = false) (hrow : chart.row? s event.name = none)
    (hfinal : (index chart).final s = false) :
    x.dispatch key event = .error (.unhandledEvent event.name [s]) := by
  obtain ⟨result, htaken, hdispatch⟩ := h.dispatch hx hs hi hr hpost
  rw [hdispatch]
  cases htaken with
  | stale hnot => exact absurd (hnot.symm.trans hstale) nofun
  | fired _ hrow' => exact absurd (hrow.symm.trans hrow') nofun
  | final _ _ hnot => exact absurd (hnot.symm.trans hfinal) nofun
  | unhandled => rfl

end Dispatch

/-- The initial entry leaves an instance in the initial leaf. -/
theorem Flat.enters (h : Flat chart leaves) {r : Records κ υ ω} (item : Item κ υ) (hi : r.instances item.key = some inst)
    (hkind : item.kind = .start) (hc : inst.chart = chart) (ha : inst.active = ∅) (hd : inst.deferred = [])
    (hentry : (index chart).initialEntry = [chart.root.name, s]) (hs : s ∈ leaves) :
    ∃ ran : Ran κ υ ω, StateMachine.microstep r item = .ok ran ∧ ran.2.2.order = [] ∧ ran.1.deferring = r.deferring ∧
      ran.2.1.intents = [] ∧ ran.1.world = r.world ∧ ∃ inst',
        ran.1.instances = Function.update r.instances item.key (some inst') ∧ Resting chart s inst' ∧
        inst'.data = inst.data ∧ inst'.generations = inst.generations := by
  have hroot := (h.plain chart.root.name List.mem_cons_self).2.1
  have hleaf := (h.plain s (List.mem_cons_of_mem _ hs)).2.1
  simp only [StateMachine.microstep, Records.get, hi, hkind, Infra.ok_bind, StateMachine.fire, hc, hentry, reduceCtorEq,
    if_false, if_true, enterStates, hroot, hleaf, call_unnamed, runRows, Records.write, Function.update_self,
    Function.update_idem]
  refine ⟨_, rfl, ?_, rfl, rfl, rfl, _, rfl, ⟨rfl, ?_, hd⟩, rfl, rfl⟩
  · simp only [Queued.order, StateMachine.completions, h.completes_nothing]
    rfl
  · simp only [ha, Statechart.rest]
    exact Finset.pair_comm _ _

/-- `start` and `run`: a new instance rests in the initial leaf. -/
theorem Flat.start [Inhabited υ] (h : Flat chart leaves) (data : υ) (hx : x.Idle) (hnone : x.records.instances key = none)
    (hentry : (index chart).initialEntry = [chart.root.name, s]) (hs : s ∈ leaves) :
    ∃ x₁ x₂ out inst, x.start key chart data = .ok x₁ ∧ x₁.drain = .ok (some (x₂, [out])) ∧ x₂.Idle ∧
      x₂.records.instances = Function.update x.records.instances key (some inst) ∧ Resting chart s inst ∧
      inst.data = data ∧ inst.generations = (fun _ => 0) ∧ x₂.records.world = x.records.world ∧ out.intents = [] := by
  let first : Item κ υ := { key, kind := .start, event := { name := INITIAL, payload := default } }
  let inst₀ : Instance κ υ ω := { chart, data, added := x.records.added + 1 }
  let r₀ : Records κ υ ω := { x.records.write key inst₀ with added := x.records.added + 1 }
  have hstart : x.start key chart data = .ok { x with records := r₀, pool := [first] } := by
    rw [Executor.start, Executor.add, hnone]
    simp only [Infra.ok_bind, hx.pool]
    rfl
  obtain ⟨ran, hran, horder, hdeferring, hintents, hworld, inst, hinst, hrest, hdata, hgenerations⟩ :=
    h.enters (r := r₀) first (Function.update_self ..) rfl rfl rfl rfl hentry hs
  have hdrain := drain_one (x := { x with records := r₀, pool := [first] }) hx.worklist hx.deferring rfl hran horder
    (hdeferring.trans hx.deferring)
  refine ⟨_, _, _, inst, hstart, hdrain, ⟨rfl, rfl, hdeferring.trans hx.deferring⟩, ?_, hrest, hdata, hgenerations,
    hworld, hintents⟩
  exact hinst.trans (Function.update_idem ..)

/-- An instance in a final leaf can be forgotten. -/
theorem Flat.forget (h : Flat chart leaves) (hx : x.Idle) (hi : x.records.instances key = some inst)
    (hr : Resting chart s inst) (hs : s ∈ leaves) (hfinal : (index chart).final s = true) :
    x.forget key = .ok { x with records :=
      { x.records with instances := Function.update x.records.instances key none } } := by
  have hget : x.records.get key = .ok inst := by rw [Records.get, hi]
  have hfinals : ∀ t ∈ inst.active, (index chart).parent t = some (index chart).root → (index chart).final t = true := by
    intro t ht hparent
    rw [hr.active, Statechart.rest, Finset.mem_insert, Finset.mem_singleton] at ht
    rcases ht with rfl | rfl
    · rw [h.parents _ List.mem_cons_self, if_pos rfl] at hparent
      cases hparent
    · exact hfinal
  simp only [Executor.forget, hget, Infra.ok_bind, hr.chart, hr.deferred, hx.pool]
  rw [if_neg (by simpa using ⟨h.regions, hfinals⟩)]
  rfl

/-- An instance restored in a leaf rests there. -/
theorem restore_rests (data : υ) (generations : Name → Int) (hx : x.Idle) (hnone : x.records.instances key = none)
    (hlegal : configurationProblem (index chart) (chart.rest s) = none) :
    ∃ x' inst, x.restore key chart (chart.rest s) data generations = .ok x' ∧ x'.Idle ∧
      x'.records.instances = Function.update x.records.instances key (some inst) ∧ Resting chart s inst ∧
      inst.data = data ∧ inst.generations = generations ∧ x'.records.world = x.records.world := by
  rw [Executor.restore, hlegal]
  simp only [Executor.add, hnone]
  exact ⟨_, _, rfl, ⟨hx.pool, hx.worklist, hx.deferring⟩, rfl, ⟨rfl, rfl, rfl⟩, rfl, rfl, rfl⟩

end Macrostep

end Dsl41.StateMachine
