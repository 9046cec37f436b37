import Dsl41.StateMachine.Calls
import Dsl41.StateMachine.Runs

/-!
# Charts that answer at once

A chart is prompt when no state of it defers an event or is final, no time event of it is re-armed
and its actions report no continuation. An event of such an instance fires rows or raises, so the
executor holds events and completions alone and a turn is a microstep or the next root item.

* `Chosen.answer` — the rows a microstep runs are rows of the item's event whose guards hold
* `Executor.Prompt.turn` — a turn keeps the executor prompt, and is one of the three rounds
* `Round.relates` — a relation the actions and the hook respect holds along a round
-/

namespace Dsl41.StateMachine

open Infra

variable {κ υ ω : Type}

/-- No state defers or is final, no time event is re-armed, no action continues. -/
structure Prompt (chart : Statechart κ υ ω) : Prop where
  plain : Plain chart
  defer : ∀ s, (index chart).defer s = []
  final : ∀ s, (index chart).final s = false
  generational : (index chart).generational = []

/-- What is said of every declared state is said of the state of a name. -/
theorem Index.forall_state {ix : Index} {p : State → Prop} (h : ∀ e ∈ ix.entries, p e.state)
    {s : Name} {st : State} (hs : ix.state? s = some st) : p st := by
  obtain ⟨e, he, rfl⟩ := Option.map_eq_some_iff.mp hs
  exact h e (by simpa using List.mem_of_find?_eq_some he)

/-- The tree of a prompt chart, checked state by state. -/
theorem Prompt.of_entries {chart : Statechart κ υ ω} (plain : Plain chart)
    (states : ∀ e ∈ (index chart).entries, e.state.defer = [] ∧ e.state.final = false)
    (generational : (index chart).generational = []) : Prompt chart where
  plain := plain
  defer s := by
    unfold Index.defer
    cases hs : (index chart).state? s with
    | none => rfl
    | some st =>
      exact Index.forall_state (p := fun st => st.defer = []) (fun e he => (states e he).1) hs
  final s := by
    unfold Index.final
    cases hs : (index chart).state? s with
    | none => rfl
    | some st =>
      exact Index.forall_state (p := fun st => st.final = false) (fun e he => (states e he).2) hs
  generational := generational

/-! ## What an item fires -/

/-- An event, or a completion under the completion's event. -/
def Item.Plain (item : Item κ υ) : Prop :=
  item.kind = .event ∨ item.kind = .completion ∧ item.event.name = COMPLETION

section Selection

variable {chart : Statechart κ υ ω} {ix : Index} {ctx : Context κ υ} {world : ω} {active : Finset Name}

theorem enabled_holds {state event : Name} {row : Row}
    (h : enabled chart ix state event ctx world = .ok (some row)) :
    holds chart row.guard ctx world = .ok true := by
  unfold enabled at h
  obtain ⟨held, hheld, h⟩ := bind_eq_ok.mp h
  split at h
  · cases h
  next r =>
    cases h
    exact ((heldRows_mem hheld row).mp (List.mem_singleton_self row)).2
  · cases h

theorem walk_holds : ∀ {l : List Name} {row : Row}, walk chart ix ctx world l = .ok (.row row) →
    row.event = ctx.event.name ∧ holds chart row.guard ctx world = .ok true
  | [], row, h => by cases h
  | s :: l, row, h => by
    unfold walk at h
    obtain ⟨found, hf, h⟩ := bind_eq_ok.mp h
    cases found with
    | some r =>
      cases h
      exact ⟨(enabled_some hf).2.2, enabled_holds hf⟩
    | none =>
      simp only at h
      split at h
      · cases h
      · exact walk_holds h

/-- Every row of a firing set is a row of the event, and its guard holds. -/
theorem select_holds {firing : List Row} {deferring : List Name}
    (h : select chart ix active ctx world = .ok (firing, deferring)) :
    ∀ row ∈ firing, row.event = ctx.event.name ∧ holds chart row.guard ctx world = .ok true := by
  obtain ⟨candidates, stood, kept, hg, hy, hc, hx⟩ := select_stages h
  obtain ⟨hnd, hrows, -⟩ := gather_spec List.nodup_nil hg
  intro row hr
  have hstood := (withoutExitedSources_sublist hx).subset hr
  have hnd' : stood.Nodup := (yielded_spec hy).1.nodup (hnd.filter _)
  have hkept := (withoutConflicts_spec hnd' hc).1.subset hstood
  have hcandidate := (List.mem_filter.mp ((yielded_spec hy).1.subset hkept)).1
  rcases (hrows row).mp hcandidate with hm | ⟨leaf, -, hw⟩
  · cases hm
  · exact walk_holds hw

end Selection

variable {inst : Instance κ υ ω} {item : Item κ υ} {world : ω} {rows : List Row} {kind : OutcomeKind}

/-- The rows that answer an item: some, each a row of the item's event whose guard holds. -/
structure Answers (inst : Instance κ υ ω) (item : Item κ υ) (world : ω) (rows : List Row) : Prop where
  some : rows ≠ []
  row : ∀ row ∈ rows, row ∈ inst.chart.rows ∧ row.event = item.event.name ∧
    holds inst.chart row.guard (context inst item) world = .ok true

theorem stale_false (hp : Prompt inst.chart) {event : Event υ} : stale inst event = false := by
  simp [stale, hp.generational]

theorem not_deferred (hp : Prompt inst.chart) {states : List Name} :
    decideItem inst item (context inst item) world ≠ .ok (.deferred states) := by
  intro hd
  obtain ⟨hne, hsel⟩ := decideItem_deferred hd
  obtain ⟨candidates, -, -, hg, -⟩ := select_stages hsel
  obtain ⟨-, -, hdefs⟩ := gather_spec List.nodup_nil hg
  refine hne (List.eq_nil_iff_forall_not_mem.mpr fun s hs => ?_)
  rcases (hdefs s).mp hs with hm | ⟨leaf, -, hw⟩
  · cases hm
  · have := (walk_deferral hw).2
    rw [hp.defer] at this
    cases this

theorem finalLeaves_nil (hp : Prompt inst.chart) : (index inst.chart).finalLeaves inst.active = [] := by
  unfold Index.finalLeaves
  cases hl : (index inst.chart).leaves inst.active with
  | nil => simp
  | cons s l => simp [hp.final s]

/-- An event that fires nothing raises. -/
theorem decideItem_prompt (hp : Prompt inst.chart)
    (h : decideItem inst item (context inst item) world = .ok (.fired rows)) :
    rows ≠ [] ∧ ∃ deferring,
      select inst.chart (index inst.chart) inst.active (context inst item) world = .ok (rows, deferring) := by
  unfold decideItem at h
  rw [stale_false hp, if_neg (by decide)] at h
  obtain ⟨⟨firing, deferring⟩, hsel, h⟩ := bind_eq_ok.mp h
  simp only at h
  split at h
  next hne =>
    cases h
    exact ⟨hne, deferring, hsel⟩
  · split at h
    · cases h
    · rw [finalLeaves_nil hp, if_neg (by simp)] at h
      cases h

/-- **The rows a microstep of a prompt chart runs answer its item.** -/
theorem Chosen.answer (hp : Prompt inst.chart) (hk : item.Plain)
    (h : Chosen inst item world rows kind) : Answers inst item world rows := by
  cases h with
  | continued h => rcases hk with hk | ⟨hk, -⟩ <;> rw [hk] at h <;> cases h
  | started h => rcases hk with hk | ⟨hk, -⟩ <;> rw [hk] at h <;> cases h
  | completed hc _ hr =>
    rcases hk with hk | ⟨-, hk⟩
    · rw [hk] at hc
      cases hc
    · obtain ⟨hm, -, he⟩ := enabled_some hr
      refine ⟨List.cons_ne_nil _ _, fun row hrow => ?_⟩
      rw [List.mem_singleton.mp hrow]
      exact ⟨hm, he.trans hk.symm, enabled_holds hr⟩
  | overflowed _ hd _ => exact absurd hd (not_deferred hp)
  | fired _ hd =>
    obtain ⟨hne, deferring, hsel⟩ := decideItem_prompt hp hd
    refine ⟨hne, fun row hr => ?_⟩
    obtain ⟨he, hh⟩ := select_holds hsel row hr
    exact ⟨((select_sources hsel).1 row hr).1, he, hh⟩

/-! ## A turn -/

variable [DecidableEq κ]

/-- A microstep of a prompt chart's instance: a completion whose state is gone, or a firing set that
answers the item. -/
theorem microstep_prompt {r r' : Records κ υ ω} {out : Outcome κ υ} {q : Queued κ υ}
    (h : microstep r item = .ok (r', out, q)) (hi : r.instances item.key = some inst)
    (hp : Prompt inst.chart) (hk : item.Plain) :
    (item.kind = .completion ∧ occurrenceGone inst item = true ∧ r' = r ∧
      out = outcome item .discarded ∧ q.order = []) ∨
    ∃ rows inst' cs left entered sends, Answers inst item r.world rows ∧
      Fired r r' item inst inst' rows out q cs left entered sends ∧
      inst'.deferred = inst.deferred ∧ r'.deferring = r.deferring := by
  obtain ⟨inst₀, hi₀, hrun⟩ := microstep_cases h
  rw [hi] at hi₀
  cases hi₀
  cases hrun with
  | discarded hd =>
    rcases hd with ⟨hc, hgone⟩ | ⟨-, hd⟩
    · exact Or.inl ⟨hc, hgone, rfl, rfl, rfl⟩
    · unfold decideItem at hd
      rw [stale_false hp, if_neg (by decide)] at hd
      obtain ⟨⟨firing, deferring⟩, -, hd⟩ := bind_eq_ok.mp hd
      simp only at hd
      repeat' split at hd
      all_goals cases hd
  | deferred _ hd _ => exact absurd hd (not_deferred hp)
  | @ran rows kind _ hc hf =>
    have hplain : item.kind = .event ∨ item.kind = .completion := hk.imp id And.left
    have hkind : kind ≠ .started ∧ kind ≠ .continued := by
      cases hc with
      | continued h => rcases hplain with hk | hk <;> rw [hk] at h <;> cases h
      | started h => rcases hplain with hk | hk <;> rw [hk] at h <;> cases h
      | completed _ _ _ => exact ⟨nofun, nofun⟩
      | fired _ _ => exact ⟨nofun, nofun⟩
      | overflowed _ _ _ => exact ⟨nofun, nofun⟩
    obtain ⟨inst', cs, left, entered, sends, hfired⟩ := fire_calls hf hi hp.plain hkind.1 hkind.2
    obtain ⟨_, _, _, _, -, hm, -⟩ := fire_spec hi hf
    obtain ⟨inst'', hi', -, -, hdef, -⟩ := hm.own inst hi
    rw [hfired.own] at hi'
    cases hi'
    exact Or.inr ⟨rows, inst', cs, left, entered, sends, hc.answer hp hk, hfired, hdef, hm.deferring⟩

/-- The executor of prompt charts: what is said of each instance's chart and data, no deferral, and
events and completions alone. -/
structure Executor.Prompt (C : κ → Statechart κ υ ω → υ → Prop) (e : Executor κ υ ω) : Prop where
  charts : ∀ key inst, e.records.instances key = some inst →
    C key inst.chart inst.data ∧ inst.deferred = []
  deferring : e.records.deferring = []
  items : ∀ item ∈ e.worklist ++ e.pool, item.Plain

/-- The rounds of an executor of prompt charts. -/
inductive Round (after : Hook κ υ ω) (e : Executor κ υ ω) : Executor κ υ ω → Prop
  | pooled {item : Item κ υ} {pool : List (Item κ υ)} (hw : e.worklist = [])
      (hp : e.pool = item :: pool) : Round after e { e with pool, worklist := [item] }
  | gone {item : Item κ υ} {rest : List (Item κ υ)} {inst : Instance κ υ ω}
      (hw : e.worklist = item :: rest) (hi : e.records.instances item.key = some inst)
      (hk : item.kind = .completion) (hg : occurrenceGone inst item = true) :
      Round after e { e with
        records := { e.records with world := after (outcome item .discarded) e.records }
        worklist := rest }
  | fired {item : Item κ υ} {rest : List (Item κ υ)} {inst inst' : Instance κ υ ω}
      {r : Records κ υ ω} {out : Outcome κ υ} {q : Queued κ υ} {rows : List Row}
      {cs : List Call} {left entered : List Name} {sends : List (κ × Event υ)}
      (hw : e.worklist = item :: rest) (hi : e.records.instances item.key = some inst)
      (ha : Answers inst item e.records.world rows)
      (hf : Fired e.records r item inst inst' rows out q cs left entered sends) :
      Round after e { e with
        records := { r with world := after out r }, worklist := q.order ++ rest }

section Turn

variable {C : κ → Statechart κ υ ω → υ → Prop} {after : Hook κ υ ω} {e e' : Executor κ υ ω}

omit [DecidableEq κ] in
/-- The items a firing set queues are events and completions. -/
theorem Fired.plain {r r' : Records κ υ ω} {inst' : Instance κ υ ω} {out : Outcome κ υ} {q : Queued κ υ}
    {cs : List Call} {left entered : List Name} {sends : List (κ × Event υ)}
    (h : Fired r r' item inst inst' rows out q cs left entered sends) : ∀ i ∈ q.order, i.Plain := by
  intro i hi
  rw [h.queued, h.completions] at hi
  rcases List.mem_append.mp hi with hi | hi
  · obtain ⟨_, -, rfl⟩ := List.mem_map.mp hi
    exact Or.inl rfl
  · obtain ⟨_, -, rfl⟩ := List.mem_map.mp hi
    exact Or.inr ⟨rfl, rfl⟩

/-- **A turn keeps the executor prompt, and is one of its rounds.** -/
theorem Executor.Prompt.turn (hC : ∀ key chart data, C key chart data → StateMachine.Prompt chart)
    (h : e.Prompt C) {out : Option (Outcome κ υ)} (hs : e.turn after = .ok (some (e', out))) :
    e'.Prompt C ∧ Round after e e' := by
  cases turn_cases hs with
  | @step item rest r out q hw hm =>
    obtain ⟨inst, hi, -⟩ := microstep_cases hm
    have hplain : item.Plain := h.items item (by simp [hw])
    have hrest : ∀ i ∈ rest ++ e.pool, i.Plain := fun i hi => h.items i (by
      rw [hw, List.cons_append]
      exact List.mem_cons_of_mem _ hi)
    obtain ⟨hc, hd⟩ := h.charts _ _ hi
    rcases microstep_prompt hm hi (hC _ _ _ hc) hplain with
      ⟨hk, hg, rfl, rfl, hq⟩ | ⟨rows, inst', cs, left, entered, sends, ha, hf, hdef, hdefs⟩
    · rw [hq]
      exact ⟨⟨h.charts, h.deferring, hrest⟩, .gone hw hi hk hg⟩
    · refine ⟨⟨fun key i hkey => ?_, hdefs.trans h.deferring, fun i hi => ?_⟩, .fired hw hi ha hf⟩
      · by_cases hkey' : key = item.key
        · subst hkey'
          have hown : some i = some inst' := hkey.symm.trans hf.own
          cases hown
          exact ⟨hf.chart ▸ hf.data ▸ hc, hdef.trans hd⟩
        · exact h.charts key i (hf.other key hkey' ▸ hkey)
      · rw [List.append_assoc] at hi
        rcases List.mem_append.mp hi with hi | hi
        · exact hf.plain i hi
        · exact hrest i hi
  | @released item r hw hr =>
    -- nothing is deferred, so nothing is released
    have hnone : release e.records = .ok none := by
      simp [release, Records.releaseOrder, h.deferring, releaseFrom]
    rw [hnone] at hr
    cases hr
  | @pooled item pool hw hp =>
    refine ⟨⟨h.charts, h.deferring, fun i hi => h.items i ?_⟩, .pooled hw hp⟩
    rw [hw, hp]
    exact hi

omit [DecidableEq κ] in
/-- **What the actions and the hook do to the world, a round does.** -/
theorem Round.relates {R : ω → ω → Prop} (refl : ∀ w, R w w) (trans : ∀ a b c, R a b → R b c → R a c)
    (h : Round after e e')
    (action : ∀ key inst, e.records.instances key = some inst →
      ∀ name act, inst.chart.actions name = some act → ∀ ctx w, R w (act ctx w).2)
    (hook : ∀ out r, R r.world (after out r)) : R e.records.world e'.records.world := by
  cases h with
  | pooled _ _ => exact refl _
  | gone _ _ _ _ => exact hook _ _
  | fired _ hi _ hf => exact trans _ _ _ (hf.calls.relates refl trans (action _ _ hi)) (hook _ _)

/-! ## The tier's calls -/

/-- An instance restored in a configuration is one more prompt instance. -/
theorem Executor.Prompt.restore (h : e.Prompt C) {key : κ} {chart : Statechart κ υ ω} {active : Finset Name}
    {data : υ} {generations : Name → Int} (hc : C key chart data)
    (hs : e.restore key chart active data generations = .ok e') :
    e'.Prompt C ∧ e'.records.world = e.records.world := by
  unfold Executor.restore at hs
  split at hs
  · cases hs
  · unfold Executor.add at hs
    split at hs
    · cases hs
    · cases hs
      refine ⟨⟨fun k inst hi => ?_, h.deferring, h.items⟩, rfl⟩
      by_cases hk : k = key
      · subst hk
        have hown : some inst = _ := hi.symm.trans write_self
        cases hown
        exact ⟨hc, rfl⟩
      · exact h.charts k inst ((write_other hk).symm.trans hi)

/-- An instance restored moves no other. -/
theorem Executor.restore_instances {key : κ} {chart : Statechart κ υ ω} {active : Finset Name} {data : υ}
    {generations : Name → Int} (hs : e.restore key chart active data generations = .ok e') :
    (e'.records.instances key).map (·.active) = some active ∧
      (∀ k ≠ key, e'.records.instances k = e.records.instances k) ∧ e'.records.world = e.records.world := by
  unfold Executor.restore at hs
  split at hs
  · cases hs
  · unfold Executor.add at hs
    split at hs
    · cases hs
    · cases hs
      exact ⟨congrArg (Option.map (·.active)) write_self, fun k hk => write_other hk, rfl⟩

omit [DecidableEq κ] in
/-- A posted event waits in the pool. -/
theorem Executor.Prompt.post (h : e.Prompt C) {key : κ} {event : Event υ} (hs : e.post key event = .ok e') :
    e'.Prompt C ∧ e'.records = e.records := by
  unfold Executor.post at hs
  obtain ⟨inst, -, hs⟩ := bind_eq_ok.mp hs
  obtain ⟨_, -, hs⟩ := bind_eq_ok.mp hs
  cases hs
  refine ⟨⟨h.charts, h.deferring, fun item hi => ?_⟩, rfl⟩
  rw [← List.append_assoc] at hi
  rcases List.mem_append.mp hi with hi | hi
  · exact h.items item hi
  · rw [List.mem_singleton.mp hi]
    exact Or.inl rfl

end Turn

end Dsl41.StateMachine
