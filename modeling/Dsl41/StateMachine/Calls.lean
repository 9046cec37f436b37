import Dsl41.StateMachine.Moves

/-!
# What a microstep calls

The actions a microstep runs, each with the configuration it saw, as a list that is replayed over
the world. What the microstep sends and reports is what the replay gives, and the items it queues
are those events in their order ahead of the completions.

* `RowCalls` — the calls of one row, next to the states it leaves and enters
* `fire_calls`, `microstep_calls` — a firing set, a microstep

Continuations and re-armed time events are left out: the theorems are about charts whose actions
report neither (`Plain`).
-/

namespace Dsl41.StateMachine

open Infra

variable {κ υ ω : Type}

/-! ## Replays -/

/-- An action's name and the configuration it saw. -/
abbrev Call := Name × Finset Name

def sent (fx : Option (Effects κ υ)) : List (κ × Event υ) := fx.elim [] (·.send)

def reported (fx : Option (Effects κ υ)) : List υ := fx.elim [] (·.intents)

/-- The chart's actions report no continuation and re-arm nothing. -/
def Plain (chart : Statechart κ υ ω) : Prop :=
  ∀ name action, chart.actions name = some action → ∀ ctx world fx,
    (action ctx world).1 = some fx → fx.andThen = "" ∧ fx.rearm = []

/-- A list of calls run one after the other, with what they send and report. -/
inductive Calls (chart : Statechart κ υ ω) (ctx : Context κ υ) :
    List Call → ω → List (κ × Event υ) → List υ → ω → Prop
  | nil {w : ω} : Calls chart ctx [] w [] [] w
  | cons {name : Name} {active : Finset Name} {cs : List Call} {action : Action κ υ ω}
      {w w' : ω} {sends : List (κ × Event υ)} {intents : List υ}
      (h : chart.actions name = some action)
      (hs : Calls chart ctx cs (action { ctx with active } w).2 sends intents w') :
      Calls chart ctx ((name, active) :: cs) w
        (sent (action { ctx with active } w).1 ++ sends)
        (reported (action { ctx with active } w).1 ++ intents) w'

namespace Calls

variable {chart : Statechart κ υ ω} {ctx : Context κ υ} {cs ds : List Call} {w w' w'' : ω}
  {sends sends' : List (κ × Event υ)} {intents intents' : List υ}

theorem append (h : Calls chart ctx cs w sends intents w')
    (h' : Calls chart ctx ds w' sends' intents' w'') :
    Calls chart ctx (cs ++ ds) w (sends ++ sends') (intents ++ intents') w'' := by
  induction h with
  | nil => exact h'
  | cons ha _ ih =>
    rw [List.append_assoc, List.append_assoc]
    exact .cons ha (ih h')

/-- Every call moves the world by the relation, and so does the whole replay. -/
theorem relates {R : ω → ω → Prop} (refl : ∀ w, R w w)
    (trans : ∀ a b c, R a b → R b c → R a c)
    (h : Calls chart ctx cs w sends intents w')
    (hr : ∀ name action, chart.actions name = some action → ∀ c w, R w (action c w).2) :
    R w w' := by
  induction h with
  | nil => exact refl _
  | cons ha _ ih => exact trans _ _ _ (hr _ _ ha _ _) ih

/-- Every sent event is some call's, in the world that call met. -/
theorem mem_sends (h : Calls chart ctx cs w sends intents w') {s : κ × Event υ} (hs : s ∈ sends) :
    ∃ name active action w₀, (name, active) ∈ cs ∧ chart.actions name = some action ∧
      s ∈ sent (action { ctx with active } w₀).1 := by
  induction h with
  | nil => cases hs
  | cons ha _ ih =>
    rcases List.mem_append.mp hs with hs | hs
    · exact ⟨_, _, _, _, List.mem_cons_self, ha, hs⟩
    · obtain ⟨name, active, action, w₀, hm, ha', hs'⟩ := ih hs
      exact ⟨name, active, action, w₀, List.mem_cons_of_mem _ hm, ha', hs'⟩

end Calls

/-- The call of a name; no action has the empty one. -/
def named (name : Name) (active : Finset Name) : List Call :=
  if name = "" then [] else [(name, active)]

@[simp] theorem named_empty {active : Finset Name} : named "" active = [] := rfl

/-! ## Progress with its reports -/

/-- The item an action's event becomes. -/
def Microstep.itemOf (step : Microstep κ υ) (s : κ × Event υ) : Item κ υ :=
  { key := s.1, kind := .event, event := s.2, ancestry := step.chained }

/-- `step'` is `step` after it sent and reported more. -/
structure Tells (step step' : Microstep κ υ) (sends : List (κ × Event υ)) (intents : List υ) :
    Prop where
  item : step'.item = step.item
  reported : step'.reported = step.reported ++ sends.map step.itemOf
  continuations : step'.continuations = step.continuations
  intents : step'.intents = step.intents ++ intents

namespace Tells

variable {step step' step'' : Microstep κ υ} {s s' : List (κ × Event υ)} {i i' : List υ}

theorem refl : Tells step step [] [] := ⟨rfl, by simp, rfl, by simp⟩

theorem trans (h : Tells step step' s i) (h' : Tells step' step'' s' i') :
    Tells step step'' (s ++ s') (i ++ i') where
  item := h'.item.trans h.item
  reported := by
    have hchain : step'.itemOf = step.itemOf := by
      funext x
      simp only [Microstep.itemOf, Microstep.chained, h.item]
    rw [h'.reported, h.reported, hchain, List.map_append, List.append_assoc]
  continuations := h'.continuations.trans h.continuations
  intents := by rw [h'.intents, h.intents, List.append_assoc]

/-- A change of the entered and left states tells nothing. -/
theorem moved {step : Microstep κ υ} {entered branches left : List Name} :
    Tells step { step with entered, branches, left } [] [] := ⟨rfl, by simp, rfl, by simp⟩

end Tells

variable [DecidableEq κ]

/-- What the calls of a computation told, from the instance they ran on. -/
def Spoke (inst : Instance κ υ ω) (r r' : Records κ υ ω) (step step' : Microstep κ υ)
    (cs : List Call) : Prop :=
  ∃ sends intents, Calls inst.chart (context inst step.item) cs r.world sends intents r'.world ∧
    Tells step step' sends intents

namespace Spoke

variable {inst inst' : Instance κ υ ω} {r r' r'' : Records κ υ ω}
  {step step' step'' : Microstep κ υ} {cs ds : List Call}

omit [DecidableEq κ] in
theorem refl : Spoke inst r r step step [] := ⟨[], [], .nil, .refl⟩

omit [DecidableEq κ] in
theorem calls_congr {sends : List (κ × Event υ)} {intents : List υ} {w w' : ω}
    (hc : inst'.chart = inst.chart) (hd : inst'.data = inst.data) {item : Item κ υ}
    (h : Calls inst'.chart (context inst' item) cs w sends intents w') :
    Calls inst.chart (context inst item) cs w sends intents w' := by
  rw [hc] at h
  induction h with
  | nil => exact .nil
  | @cons name active cs action w w' sends intents ha _ ih =>
    have hctx : { context inst' item with active } = { context inst item with active } := by
      simp only [context, hd]
    rw [hctx] at ih ⊢
    exact .cons ha ih

omit [DecidableEq κ] in
theorem trans (hc : inst'.chart = inst.chart) (hd : inst'.data = inst.data)
    (h : Spoke inst r r' step step' cs) (h' : Spoke inst' r' r'' step' step'' ds) :
    Spoke inst r r'' step step'' (cs ++ ds) := by
  obtain ⟨s, i, hcs, ht⟩ := h
  obtain ⟨s', i', hds, ht'⟩ := h'
  rw [ht.item] at hds
  exact ⟨s ++ s', i ++ i', hcs.append (calls_congr hc hd hds), ht.trans ht'⟩

omit [DecidableEq κ] in
theorem congr (h : Spoke inst' r r' step step' cs) (hc : inst'.chart = inst.chart)
    (hd : inst'.data = inst.data) : Spoke inst r r' step step' cs := by
  obtain ⟨s, i, hcs, ht⟩ := h
  exact ⟨s, i, calls_congr hc hd hcs, ht⟩

omit [DecidableEq κ] in
/-- A change that neither calls nor tells may come first. -/
theorem silent (hw : r'.world = r.world) (ht : Tells step step' [] [])
    (h : Spoke inst r' r'' step' step'' cs) : Spoke inst r r'' step step'' cs := by
  obtain ⟨s, i, hcs, hts⟩ := h
  rw [hw, ht.item] at hcs
  exact ⟨s, i, hcs, by simpa using ht.trans hts⟩

end Spoke

/-! ## One action -/

omit [DecidableEq κ] in
theorem reportSends_tells {r : Records κ υ ω} : ∀ {sends : List (κ × Event υ)}
    {step step' : Microstep κ υ}, reportSends r sends step = .ok step' → Tells step step' sends []
  | [], step, step', h => by
    cases h
    exact .refl
  | (key, event) :: sends, step, step', h => by
    unfold reportSends at h
    obtain ⟨inst, -, h⟩ := bind_eq_ok.mp h
    obtain ⟨_, -, h⟩ := bind_eq_ok.mp h
    have hfirst : Tells step { step with reported := step.reported ++
        [{ key, kind := .event, event, ancestry := step.chained }] } [(key, event)] [] :=
      ⟨rfl, rfl, rfl, by simp⟩
    exact hfirst.trans (reportSends_tells h)

/-- **A call of a plain chart's action tells what its effects hold.** -/
theorem call_spoke {r r' : Records κ υ ω} {step step' : Microstep κ υ} {name : Name}
    {inst : Instance κ υ ω} (h : call r step name = .ok (r', step'))
    (hi : r.instances step.item.key = some inst) (hp : Plain inst.chart) :
    Spoke inst r r' step step' (named name inst.active) ∧ r'.instances = r.instances := by
  unfold call at h
  by_cases hn : name = ""
  · rw [if_pos hn] at h
    cases h
    rw [hn]
    exact ⟨.refl, rfl⟩
  · rw [if_neg hn] at h
    obtain ⟨_, hget, h⟩ := bind_eq_ok.mp h
    rw [get_eq_ok.mpr hi] at hget
    cases hget
    have hnamed : named name inst.active = [(name, inst.active)] := if_neg hn
    rw [hnamed]
    cases ha : inst.chart.actions name with
    | none =>
      simp only [ha] at h
      cases h
    | some action =>
      simp only [ha] at h
      have hctx : { context inst step.item with active := inst.active } = context inst step.item :=
        rfl
      cases hfx : (action (context inst step.item) r.world).1 with
      | none =>
        simp only [hfx] at h
        cases h
        refine ⟨⟨_, _, .cons ha .nil, ?_⟩, rfl⟩
        rw [hctx, hfx]
        exact .refl
      | some fx =>
        obtain ⟨hthen, hrearm⟩ := hp name action ha _ _ _ hfx
        simp only [hfx, hthen, hrearm, if_true] at h
        obtain ⟨sent', hsent, h⟩ := bind_eq_ok.mp h
        obtain ⟨r₂, hr, h⟩ := bind_eq_ok.mp h
        cases h
        cases hr
        refine ⟨⟨_, _, .cons ha .nil, ?_⟩, rfl⟩
        rw [hctx, hfx]
        have ht := reportSends_tells hsent
        refine ⟨ht.item, by simpa [sent] using ht.reported, ht.continuations, ?_⟩
        have hint := ht.intents
        simp only [List.append_nil] at hint
        simp [reported, hint]

/-! ## Exits, entries and choices -/

/-- The exit actions of some states, each before its state goes. -/
def exitCalls (ix : Index) : List Name → Finset Name → List Call
  | [], _ => []
  | s :: l, active =>
    named (((ix.state? s).map (·.exit)).getD "") active ++ exitCalls ix l (active.erase s)

/-- The entry actions of some states, each after its state is active. -/
def entryCalls (ix : Index) : List Name → Finset Name → List Call
  | [], _ => []
  | s :: l, active =>
    named (((ix.state? s).map (·.entry)).getD "") (insert s active) ++
      entryCalls ix l (insert s active)

theorem exitStates_spoke {ix : Index} : ∀ {l : List Name} {r r' : Records κ υ ω}
    {step step' : Microstep κ υ} {inst : Instance κ υ ω},
    exitStates ix l r step = .ok (r', step') →
    r.instances step.item.key = some inst → Plain inst.chart →
    Spoke inst r r' step step' (exitCalls ix l inst.active)
  | [], r, r', step, step', inst, h, hi, hp => by
    cases h
    exact .refl
  | s :: l, r, r', step, step', inst, h, hi, hp => by
    unfold exitStates at h
    obtain ⟨⟨r₁, step₁⟩, hcall, h⟩ := bind_eq_ok.mp h
    obtain ⟨inst₁, hi₁, h⟩ := bind_eq_ok.mp h
    obtain ⟨hs, hsame⟩ := call_spoke hcall hi hp
    have hkey : step₁.item = step.item := (call_spec hcall).2.item
    rw [hkey, get_eq_ok, hsame, hi] at hi₁
    cases hi₁
    have hrest := exitStates_spoke h write_self hp
    refine hs.trans rfl rfl (Spoke.silent ?_ ?_ (hrest.congr rfl rfl))
    · rfl
    · exact ⟨rfl, by simp, rfl, by simp⟩

theorem enterStates_spoke {ix : Index} : ∀ {l : List Name} {r r' : Records κ υ ω}
    {step step' : Microstep κ υ} {inst : Instance κ υ ω},
    enterStates ix l r step = .ok (r', step') →
    r.instances step.item.key = some inst → Plain inst.chart →
    Spoke inst r r' step step' (entryCalls ix l inst.active)
  | [], r, r', step, step', inst, h, hi, hp => by
    cases h
    exact .refl
  | s :: l, r, r', step, step', inst, h, hi, hp => by
    unfold enterStates at h
    obtain ⟨_, hget, h⟩ := bind_eq_ok.mp h
    rw [get_eq_ok.mpr hi] at hget
    cases hget
    obtain ⟨⟨r₁, step₁⟩, hcall, h⟩ := bind_eq_ok.mp h
    obtain ⟨hs, hsame⟩ := call_spoke hcall write_self hp
    have hkey : step₁.item = step.item := (call_spec hcall).2.item
    have hi₁ : r₁.instances step₁.item.key = some
        { inst with
          active := insert s inst.active
          entries := inst.entries + 1
          entered := Function.update inst.entered s (inst.entries + 1) } := by
      rw [hkey, hsame]
      exact write_self
    have hrest := enterStates_spoke h hi₁ hp
    have hfirst : Spoke inst r r₁ step step₁ _ := .silent rfl .refl (hs.congr rfl rfl)
    refine hfirst.trans rfl rfl (Spoke.silent ?_ ?_ (hrest.congr rfl rfl))
    · rfl
    · exact ⟨rfl, by simp, rfl, by simp⟩

theorem choose_spoke {r r' : Records κ υ ω} {step step' : Microstep κ υ} {choice : Choice}
    {target : Name} {inst : Instance κ υ ω} (h : choose r step choice = .ok (r', step', target))
    (hi : r.instances step.item.key = some inst) (hp : Plain inst.chart) :
    ∃ b ∈ choice.branches, target = b.target ∧ r'.instances = r.instances ∧
      Spoke inst r r' step step' (named b.action inst.active) := by
  unfold choose at h
  obtain ⟨_, hget, h⟩ := bind_eq_ok.mp h
  rw [get_eq_ok.mpr hi] at hget
  cases hget
  obtain ⟨found, hfound, h⟩ := bind_eq_ok.mp h
  cases found with
  | none => cases h
  | some b =>
    obtain ⟨⟨r₁, step₁⟩, hcall, h⟩ := bind_eq_ok.mp h
    cases h
    obtain ⟨⟨s, i, hc, ht⟩, hsame⟩ :=
      call_spoke hcall hi hp
    exact ⟨b, firstBranch_mem hfound, rfl, hsame, s, i, hc,
      ⟨ht.item, by rw [ht.reported]; rfl, ht.continuations, by rw [ht.intents]⟩⟩

/-! ## Rows -/

/-- What a row leaves and enters in a configuration, and the actions it calls. -/
inductive RowCalls (ix : Index) (sh : Shape) (row : Row) :
    List Call → List Name → List Name → Prop
  | inside (h : row.kind ≠ .external) : RowCalls ix sh row (named row.action sh.active) [] []
  | across (h : row.kind = .external) {exits : List Name}
      (hx : (ix.plan row).exits ix sh.active = .ok exits) (hc : ix.choice? row.target = none) :
      RowCalls ix sh row
        (exitCalls ix exits sh.active ++ named row.action (sh.exitAll exits).active ++
          entryCalls ix ((ix.plan row).entryOf ix row.target) (sh.exitAll exits).active)
        exits ((ix.plan row).entryOf ix row.target)
  | chosen (h : row.kind = .external) {exits : List Name} {choice : Choice} {b : Branch}
      (hx : (ix.plan row).exits ix sh.active = .ok exits)
      (hc : ix.choice? row.target = some choice) (hb : b ∈ choice.branches) :
      RowCalls ix sh row
        (exitCalls ix exits sh.active ++ named row.action (sh.exitAll exits).active ++
          (named b.action (sh.exitAll exits).active ++
          entryCalls ix ((ix.plan row).entryOf ix b.target) (sh.exitAll exits).active))
        exits ((ix.plan row).entryOf ix b.target)

theorem RowCalls.run {ix : Index} {sh : Shape} {row : Row} {cs : List Call}
    {exits enters : List Name} (h : RowCalls ix sh row cs exits enters) :
    RowRun ix sh.active row exits enters := by
  cases h with
  | inside h => exact .inside h
  | across h hx hc => exact .across h hx (by simp [Index.targets, hc])
  | chosen h hx hc hb =>
    exact .across h hx (by simpa [Index.targets, hc] using ⟨_, hb, rfl⟩)

/-- **One row, with the actions it calls.** -/
theorem runRow_calls {r r' : Records κ υ ω} {step step' : Microstep κ υ} {row : Row}
    {inst : Instance κ υ ω} (h : runRow r step row = .ok (r', step'))
    (hi : r.instances step.item.key = some inst) (hp : Plain inst.chart) :
    ∃ cs exits enters, RowCalls (index inst.chart) inst.shape row cs exits enters ∧
      Moves step.item.key (fun sh => (sh.exitAll exits).enterAll enters) r r' ∧
      Progress step step' exits enters ∧ Spoke inst r r' step step' cs := by
  unfold runRow at h
  obtain ⟨_, hget, h⟩ := bind_eq_ok.mp h
  rw [get_eq_ok.mpr hi] at hget
  cases hget
  simp only at h
  by_cases hk : row.kind = .external
  · simp only [hk, ne_eq, not_true_eq_false, if_false] at h
    obtain ⟨exits, hexits, h⟩ := bind_eq_ok.mp h
    obtain ⟨⟨r₁, step₁⟩, hexit, h⟩ := bind_eq_ok.mp h
    obtain ⟨⟨r₂, step₂⟩, hcall, h⟩ := bind_eq_ok.mp h
    obtain ⟨hm₁, hp₁⟩ := exitStates_spec hexit
    obtain ⟨hm₂, hp₂⟩ := call_spec hcall
    have hs₁ := exitStates_spoke hexit hi hp
    obtain ⟨inst₁, hi₁, hc₁, hd₁, -, -, hsh₁⟩ := hm₁.own inst hi
    have hkey₁ : r₁.instances step₁.item.key = some inst₁ := by rw [hp₁.item]; exact hi₁
    obtain ⟨hs₂, hsame⟩ := call_spoke hcall hkey₁ (hc₁ ▸ hp)
    have hp₁₂ := hp₁.trans hp₂
    have hkey₂ : r₂.instances step₂.item.key = some inst₁ := by
      rw [hsame, hp₂.item]
      exact hkey₁
    have hact : inst₁.active = (inst.shape.exitAll exits).active := congrArg Shape.active hsh₁
    have hs₁₂ := hs₁.trans hc₁ hd₁ hs₂
    rw [hact] at hs₁₂
    rw [hp₁.item] at hm₂
    simp only at h
    split at h
    next hc =>
      obtain ⟨hm₃, hp₃⟩ := enterStates_spec h
      have hs₃ := enterStates_spoke h hkey₂ (hc₁ ▸ hp)
      rw [hact] at hs₃
      rw [hp₁₂.item] at hm₃
      exact ⟨_, exits, _, .across hk hexits hc, hm₁.trans (hm₂.trans hm₃),
        by simpa using hp₁₂.trans hp₃, hs₁₂.trans hc₁ hd₁ hs₃⟩
    next choice hc =>
      obtain ⟨⟨r₃, step₃, target⟩, hchoose, h⟩ := bind_eq_ok.mp h
      obtain ⟨hm₃, hp₃, -⟩ := choose_spec hchoose
      obtain ⟨b, hb, rfl, hsame₃, hs₃⟩ := choose_spoke hchoose hkey₂ (hc₁ ▸ hp)
      have hkey₃ : r₃.instances step₃.item.key = some inst₁ := by
        rw [hsame₃, hp₃.item]
        exact hkey₂
      obtain ⟨hm₄, hp₄⟩ := enterStates_spec h
      have hs₄ := enterStates_spoke h hkey₃ (hc₁ ▸ hp)
      rw [hact] at hs₃ hs₄
      rw [hp₃.item, hp₁₂.item] at hm₄
      rw [hp₁₂.item] at hm₃
      exact ⟨_, exits, _, .chosen hk hexits hc hb, hm₁.trans (hm₂.trans (hm₃.trans hm₄)),
        by simpa using hp₁₂.trans (hp₃.trans hp₄), hs₁₂.trans hc₁ hd₁ (hs₃.trans rfl rfl hs₄)⟩
  · simp only [hk, ne_eq, not_false_eq_true, if_true] at h
    obtain ⟨hm, hpr⟩ := call_spec h
    exact ⟨_, [], [], .inside hk, hm, hpr, (call_spoke h hi hp).1⟩

/-! ## A firing set -/

/-- A firing set with the actions it calls, each row on the configuration the earlier ones left. -/
inductive RowsCalls (ix : Index) :
    Shape → List Row → Shape → List Call → List Name → List Name → Prop
  | nil {sh : Shape} : RowsCalls ix sh [] sh [] [] []
  | cons {sh sh' : Shape} {row : Row} {rows : List Row} {cs ds : List Call}
      {exits enters left entered : List Name} (h : RowCalls ix sh row cs exits enters)
      (hs : RowsCalls ix ((sh.exitAll exits).enterAll enters) rows sh' ds left entered) :
      RowsCalls ix sh (row :: rows) sh' (cs ++ ds) (exits ++ left) (enters ++ entered)

theorem RowsCalls.run {ix : Index} {sh sh' : Shape} {rows : List Row} {cs : List Call}
    {left entered : List Name} (h : RowsCalls ix sh rows sh' cs left entered) :
    RowsRun ix sh rows sh' left entered := by
  induction h with
  | nil => exact .nil
  | cons h _ ih => exact .cons h.run ih

theorem runRows_calls : ∀ {rows : List Row} {r r' : Records κ υ ω} {step step' : Microstep κ υ}
    {inst : Instance κ υ ω}, runRows rows r step = .ok (r', step') →
    r.instances step.item.key = some inst → Plain inst.chart →
    ∃ sh cs left entered, RowsCalls (index inst.chart) inst.shape rows sh cs left entered ∧
      Moves step.item.key (fun _ => sh) r r' ∧ Progress step step' left entered ∧
      Spoke inst r r' step step' cs
  | [], r, r', step, step', inst, h, hi, _ => by
    cases h
    refine ⟨inst.shape, [], [], [], .nil, ?_, .refl, .refl⟩
    refine ⟨fun _ _ => rfl, fun i h => ?_, rfl, rfl⟩
    rw [hi] at h
    cases h
    exact ⟨inst, hi, rfl, rfl, rfl, rfl, rfl⟩
  | row :: rows, r, r', step, step', inst, h, hi, hp => by
    unfold runRows at h
    obtain ⟨⟨r₁, step₁⟩, hrow, h⟩ := bind_eq_ok.mp h
    obtain ⟨cs, exits, enters, hrun, hm, hpr, hs⟩ := runRow_calls hrow hi hp
    obtain ⟨inst₁, hi₁, hc₁, hd₁, -, -, hsh₁⟩ := hm.own inst hi
    have hkey₁ : r₁.instances step₁.item.key = some inst₁ := by rw [hpr.item]; exact hi₁
    obtain ⟨sh, ds, left, entered, hruns, hm', hpr', hs'⟩ :=
      runRows_calls h hkey₁ (hc₁ ▸ hp)
    rw [hc₁, hsh₁] at hruns
    rw [hpr.item] at hm'
    exact ⟨sh, cs ++ ds, exits ++ left, enters ++ entered, .cons hrun hruns, hm.trans hm',
      hpr.trans hpr', hs.trans hc₁ hd₁ hs'⟩

/-- What a firing set of an event or a completion does: the rows it runs with their calls, the
instance it leaves, what the calls send and report, and what it queues. -/
structure Fired (r r' : Records κ υ ω) (item : Item κ υ) (inst inst' : Instance κ υ ω)
    (rows : List Row) (out : Outcome κ υ) (q : Queued κ υ) (cs : List Call)
    (left entered : List Name) (sends : List (κ × Event υ)) : Prop where
  run : RowsCalls (index inst.chart) inst.shape rows inst'.shape cs left entered
  calls : Calls inst.chart (context inst item) cs r.world sends out.intents r'.world
  other : ∀ k ≠ item.key, r'.instances k = r.instances k
  own : r'.instances item.key = some inst'
  chart : inst'.chart = inst.chart
  data : inst'.data = inst.data
  key : out.key = item.key
  event : out.event = item.event
  ids : out.rows = rows.map (·.id)
  queued : q.order = sends.map (fun s =>
    { key := s.1, kind := .event, event := s.2
      ancestry := item.ancestry ++ [(item.key, item.event.name)] }) ++ q.completions
  completions : q.completions =
    (completedStates (index inst.chart) inst'.active entered []).map fun s =>
      { key := item.key, kind := .completion,
        event := { name := COMPLETION, payload := item.event.payload },
        ancestry := item.ancestry ++ [(item.key, item.event.name)], name := s,
        serial := inst'.entered s }

/-- **A firing set queues what its calls sent, then its completions.** -/
theorem fire_calls {r r' : Records κ υ ω} {item : Item κ υ} {rows : List Row}
    {kind : OutcomeKind} {out : Outcome κ υ} {q : Queued κ υ} {inst : Instance κ υ ω}
    (h : fire r item rows kind = .ok (r', out, q)) (hi : r.instances item.key = some inst)
    (hp : Plain inst.chart) (hk : kind ≠ .started) (hk' : kind ≠ .continued) :
    ∃ inst' cs left entered sends,
      Fired r r' item inst inst' rows out q cs left entered sends := by
  unfold fire at h
  obtain ⟨_, hget, h⟩ := bind_eq_ok.mp h
  rw [get_eq_ok.mpr hi] at hget
  cases hget
  simp only [hk, hk', if_false] at h
  obtain ⟨⟨r₁, step₁⟩, h₁, h⟩ := bind_eq_ok.mp h
  cases h₁
  obtain ⟨⟨r₂, step₂⟩, h₂, h⟩ := bind_eq_ok.mp h
  cases h₂
  obtain ⟨⟨r₃, step₃⟩, h₃, h⟩ := bind_eq_ok.mp h
  obtain ⟨inst', hi', h⟩ := bind_eq_ok.mp h
  cases h
  obtain ⟨sh, cs, left, entered, hrun, hm, hpr, sends, intents, hc, ht⟩ := runRows_calls h₃ hi hp
  obtain ⟨i, hi₃, hchart, hdata, -, -, hsh⟩ := hm.own inst hi
  rw [get_eq_ok, hi₃] at hi'
  cases hi'
  have hentered : step₃.entered = entered := by simpa using hpr.entered
  have hsh : inst'.shape = sh := hsh
  refine ⟨inst', cs, left, entered, sends, ?_⟩
  exact {
    run := by rw [hsh]; exact hrun
    calls := by
      have : step₃.intents = intents := by simpa using ht.intents
      simpa [this] using hc
    other := hm.other
    own := hi₃
    chart := hchart
    data := hdata
    key := rfl
    event := rfl
    ids := rfl
    queued := by
      have hreported := ht.reported
      have hcontinued := ht.continuations
      simp only [List.nil_append] at hreported hcontinued
      simp only [Queued.order, hreported, hcontinued, List.append_nil]
      rfl
    completions := by
      simp only [completions, Microstep.chained, hpr.item, hentered] }

/-! ## A microstep -/

/-- What a discarded or a deferred item does: no action, nothing queued. -/
structure Passed (r r' : Records κ υ ω) (item : Item κ υ) (inst inst' : Instance κ υ ω)
    (out : Outcome κ υ) (q : Queued κ υ) : Prop where
  world : r'.world = r.world
  other : ∀ k ≠ item.key, r'.instances k = r.instances k
  own : r'.instances item.key = some inst'
  chart : inst'.chart = inst.chart
  data : inst'.data = inst.data
  shape : inst'.shape = inst.shape
  key : out.key = item.key
  event : out.event = item.event
  ids : out.rows = []
  intents : out.intents = []
  queued : q.order = []

/-- **What a microstep of an event or of a completion does to the world and to the worklist.** -/
theorem microstep_calls {r r' : Records κ υ ω} {item : Item κ υ} {out : Outcome κ υ}
    {q : Queued κ υ} {inst : Instance κ υ ω} (h : microstep r item = .ok (r', out, q))
    (hi : r.instances item.key = some inst) (hp : Plain inst.chart)
    (hk : item.kind = .event ∨ item.kind = .completion) :
    (∃ inst', Passed r r' item inst inst' out q) ∨
    ∃ rows kind inst' cs left entered sends, Chosen inst item r.world rows kind ∧
      Fired r r' item inst inst' rows out q cs left entered sends := by
  obtain ⟨inst₀, hi₀, hrun⟩ := microstep_cases h
  rw [hi] at hi₀
  cases hi₀
  cases hrun with
  | discarded _ =>
    exact Or.inl ⟨inst, rfl, fun _ _ => rfl, hi, rfl, rfl, rfl, rfl, rfl, rfl, rfl, rfl⟩
  | @deferred states he hd _ hr =>
    left
    refine ⟨{ inst with deferred := inst.deferred ++ [⟨item.event, states⟩] }, ?_⟩
    have hworld : r'.world = r.world := by
      -- a deferral writes the instance and the keys that defer
      unfold microstep at h
      obtain ⟨_, hget, h⟩ := bind_eq_ok.mp h
      rw [get_eq_ok.mpr hi] at hget
      cases hget
      simp only [he] at h
      obtain ⟨_, hd', h⟩ := bind_eq_ok.mp h
      rw [hd] at hd'
      cases hd'
      simp only [deferItem] at h
      split at h
      · cases h
        rfl
      next hb =>
        split at h
        · cases h
        · obtain ⟨row, hrow, h⟩ := bind_eq_ok.mp h
          cases row with
          | none => cases h
          | some row =>
            obtain ⟨_, _, _, _, _, _, _, _, _, _, hkind, _⟩ := fire_spec hi h
            cases hkind
    refine ⟨hworld, fun k hk => ?_, ?_, rfl, rfl, rfl, rfl, rfl, rfl, rfl, rfl⟩
    · rw [hr]
      exact write_other hk
    · rw [hr]
      exact write_self
  | @ran rows kind _ hc hf =>
    right
    have hstart : kind ≠ .started ∧ kind ≠ .continued := by
      cases hc with
      | continued h => rcases hk with hk | hk <;> rw [hk] at h <;> cases h
      | started h => rcases hk with hk | hk <;> rw [hk] at h <;> cases h
      | completed _ _ _ => exact ⟨by rintro ⟨⟩, by rintro ⟨⟩⟩
      | fired _ _ => exact ⟨by rintro ⟨⟩, by rintro ⟨⟩⟩
      | overflowed _ _ _ => exact ⟨by rintro ⟨⟩, by rintro ⟨⟩⟩
    obtain ⟨inst', cs, left, entered, sends, hfired⟩ := fire_calls hf hi hp hstart.1 hstart.2
    exact ⟨rows, kind, inst', cs, left, entered, sends, hc, hfired⟩

end Dsl41.StateMachine
