import Dsl41.Attempts.Sound

/-!
# What a posted observation leaves

The writes of the tier one by one, over what was written of an attempt so far; from them the
effects of a macrostep, and `Kept.post`: a due observation is posted without a refusal and keeps
the invariant.
-/

namespace Dsl41.Attempts

open Dsl41.Infra Dsl41.Infra.Effect Dsl41.StateMachine

variable {b : Board} {e e₁ : Tiers} {a x : String} {c c' : Cell} {f f₁ : Attempt} {ending : Option AttemptOutcome}
  {past : Past} {X Y : String → Prop}

/-! ## The writes -/

theorem amend_self {g : Attempt → Attempt} (hf : e.attempts.get? a = some f) :
    (e.amend a g).attempts.get? a = some (g f) := by
  rw [Tiers.amend, hf]
  exact Dict.get?_set_self

theorem amend_others {g : Attempt → Attempt} (hx : x ≠ a) : (e.amend a g).attempts.get? x = e.attempts.get? x := by
  rw [Tiers.amend]
  split
  · exact Dict.get?_set_ne hx
  · rfl

/-- Only the facts of the attempt are amended. -/
theorem amend_rest (e : Tiers) (a : String) (g : Attempt → Attempt) : ∃ attempts, e.amend a g = { e with attempts } := by
  rw [Tiers.amend]
  split
  · exact ⟨_, rfl⟩
  · exact ⟨e.attempts, rfl⟩

theorem Wrote.refl (hf : e.attempts.get? a = some f) : Wrote e a c f f none e where
  self := hf
  others _ := rfl
  ladders := .same rfl rfl rfl
  timer := .inl
  timers _ := rfl
  owed := ⟨[], rfl, fun _ h => absurd h List.not_mem_nil⟩
  replayed := rfl
  log := ⟨[], (List.append_nil _).symm, rfl, fun _ _ => rfl, fun _ h => absurd h List.not_mem_nil⟩

theorem Wrote.amend (hw : Wrote e a c f f₁ ending e₁) (g : Attempt → Attempt) (hladder : (g f₁).ladder = f₁.ladder)
    (hpending : (g f₁).ladderPending = f₁.ladderPending) : Wrote e a c f (g f₁) ending (e₁.amend a g) := by
  obtain ⟨attempts, hrest⟩ := amend_rest e₁ a g
  refine ⟨amend_self hw.self, fun hx => (amend_others hx).trans (hw.others hx), ?_, ?_, ?_, ?_, ?_, ?_⟩
  · rw [hrest]
    cases hw.ladders with
    | same h h' h'' => exact .same h (hladder.trans h') (hpending.trans h'')
    | writes i t h hothers hown hone hi hp => exact .writes i t h hothers hown hone (hladder.trans hi) (hpending ▸ hp)
  · rw [hrest]
    exact hw.timer
  · rw [hrest]
    exact hw.timers
  · rw [hrest]
    exact hw.owed
  · rw [hrest]
    exact hw.replayed
  · rw [hrest]
    exact hw.log

/-- An effect that is no outcome and not of the engine's life. -/
def Effect.quiet : Effect → Bool
  | .recordOutcome _ _ => false
  | effect => !effect.ofLife

theorem Effect.quiet_outcomes {effect : Effect} (h : effect.quiet) : outcomesOf x [effect] = [] := by
  cases effect <;> first | rfl | cases h

theorem Effect.quiet_life {effect : Effect} (h : effect.quiet) : effect.ofLife = false := by
  cases effect <;> first | rfl | cases h

theorem Wrote.tell (hw : Wrote e a c f f₁ ending e₁) {effect : Effect} (h : effect.quiet) :
    Wrote e a c f f₁ ending (e₁.tell effect) := by
  obtain ⟨l, hl, hself, hothers, hlife⟩ := hw.log
  refine ⟨hw.self, hw.others, hw.ladders, hw.timer, hw.timers, hw.owed, hw.replayed, l ++ [effect], ?_, ?_, ?_, ?_⟩
  · rw [Tiers.tell, hl, List.append_assoc]
  · rw [outcomesOf_append, hself, Effect.quiet_outcomes h, List.append_nil]
  · intro x hx
    rw [outcomesOf_append, hothers x hx, Effect.quiet_outcomes h]
    rfl
  · intro effect' hmem
    rcases List.mem_append.mp hmem with hmem | hmem
    · exact hlife _ hmem
    · exact List.mem_singleton.mp hmem ▸ Effect.quiet_life h

/-- The one outcome of the attempt is told. -/
theorem Wrote.outcome (hw : Wrote e a c f f₁ none e₁) (outcome : AttemptOutcome) :
    Wrote e a c f f₁ (some outcome) (e₁.tell (.recordOutcome a outcome)) := by
  obtain ⟨l, hl, hself, hothers, hlife⟩ := hw.log
  refine ⟨hw.self, hw.others, hw.ladders, hw.timer, hw.timers, hw.owed, hw.replayed, l ++ [.recordOutcome a outcome], ?_, ?_, ?_, ?_⟩
  · rw [Tiers.tell, hl, List.append_assoc]
  · rw [outcomesOf_append, hself]
    simp [outcomesOf]
  · intro x hx
    rw [outcomesOf_append, hothers x hx]
    simp [outcomesOf, hx.symm]
  · intro effect hmem
    rcases List.mem_append.mp hmem with hmem | hmem
    · exact hlife _ hmem
    · exact List.mem_singleton.mp hmem ▸ rfl

theorem Wrote.arm (hw : Wrote e a c f f₁ ending e₁) {g : Int} (hg : 0 < g) : Wrote e a c f f₁ ending (e₁.arm a g) := by
  have harmed : Wrote e a c f f₁ ending { e₁ with timers := e₁.timers.set a g } := by
    refine ⟨hw.self, hw.others, hw.ladders, ?_, ?_, hw.owed, hw.replayed, hw.log⟩
    · intro g' hg'
      obtain rfl := Option.some.inj (Dict.get?_set_self.symm.trans hg')
      exact .inr hg
    · intro x hx
      exact (Dict.get?_set_ne hx).trans (hw.timers hx)
  exact harmed.tell rfl

theorem Wrote.owe (hw : Wrote e a c f f₁ ending e₁) (owed : Owed) (h : ∀ x, owed = .cancelTimer x → x = a ∧ c.phase = .ended) :
    Wrote e a c f f₁ ending { e₁ with owed := owed :: e₁.owed } := by
  obtain ⟨l, hl, hall⟩ := hw.owed
  refine ⟨hw.self, hw.others, hw.ladders, hw.timer, hw.timers, ⟨owed :: l, by rw [hl]; rfl, ?_⟩, hw.replayed, hw.log⟩
  · intro x hx
    rcases List.mem_cons.mp hx with hx | hx
    · exact h x hx.symm
    · exact hall x hx

/-- The ladder of the facts once a task is started. -/
def Attempt.climbs (i : Nat) (f : Attempt) : Attempt := { f with ladder := some i, ladderPending := true }

/-- A ladder's task is started for an attempt with none pending. -/
theorem Wrote.startTask (hw : Wrote e a c f f₁ ending e₁) {t : Task} (htasks : e₁.tasks = e.tasks)
    (hidle : f.ladderPending = false) (hat : t.At c) : Wrote e a c f (f₁.climbs e₁.tasks.length) ending (e₁.startTask a t) := by
  obtain ⟨attempts, hrest⟩ := amend_rest e₁ a (Attempt.climbs e₁.tasks.length)
  have hself : (e₁.amend a (Attempt.climbs e₁.tasks.length)).attempts.get? a = some (f₁.climbs e₁.tasks.length) :=
    amend_self hw.self
  have hothers : ∀ {x}, x ≠ a → (e₁.amend a (Attempt.climbs e₁.tasks.length)).attempts.get? x = e.attempts.get? x :=
    fun hx => (amend_others hx).trans (hw.others hx)
  have hstart : e₁.startTask a t =
      { e₁.amend a (Attempt.climbs e₁.tasks.length) with tasks := e₁.tasks ++ [(a, t)] } := rfl
  rw [hstart]
  rw [hrest] at hself hothers ⊢
  refine ⟨hself, hothers, ?_, hw.timer, hw.timers, hw.owed, hw.replayed, hw.log⟩
  refine .writes e₁.tasks.length t (by simp) ?_ ?_ (fun hp => absurd hp (by simp [hidle])) rfl
    (by simpa [Attempt.climbs] using hat)
  · intro j hj
    rw [← htasks]
    rcases lt_or_gt_of_ne hj with hlt | hgt
    · exact List.getElem?_append_left hlt
    · rw [List.getElem?_eq_none (by simp; omega), List.getElem?_eq_none (by omega)]
  · intro x u hu
    rw [← htasks, List.getElem?_eq_none (le_refl _)] at hu
    cases hu

/-! ## The calls' parts -/

theorem returns_known (hf : e.attempts.get? a = some f) : Returns (known a) e f (e = ·) := by
  refine returns_get_bind ?_
  rw [hf]
  exact returns_pure rfl

theorem returns_setKnown (hf : e.attempts.get? a = some f) (g : Attempt → Attempt) :
    Returns (setKnown a g) e .unit (e.amend a g = ·) := by
  refine (returns_known hf).bind ?_
  rintro _ rfl
  exact returns_modify rfl

theorem returns_startTask (hf : e.attempts.get? a = some f) (t : Task) :
    Returns (startTask a t) e .unit (e.startTask a t = ·) := by
  refine (returns_known hf).bind ?_
  rintro _ rfl
  exact returns_modify rfl

theorem returns_armTimer (g : Int) : Returns (armTimer a g) e .unit (e.arm a g = ·) := returns_modify rfl

theorem returns_logged (effect : Effect) : Returns (logged effect) e .unit (e.tell effect = ·) := returns_modify rfl

/-- An event that is answered leaves the executor so, and gives its intents. -/
theorem returns_dispatchEvent {key : Key} {event : Event Payload} {intents : List Intent} {P : Machines → Prop}
    (h : Answers e.machines key event intents P) :
    Returns (dispatchEvent key event) e intents fun e' => ∃ m, P m ∧ { e with machines := m } = e' := by
  obtain ⟨m, outs, hdispatch, hintents, hP⟩ := h
  refine returns_get_bind ?_
  rw [hdispatch]
  refine Returns.bind (Q := fun e' => ∃ m, P m ∧ { e with machines := m } = e') (returns_modify ⟨m, hP, rfl⟩) ?_
  intro e' he'
  have hback : (outs.flatMap (·.intents)).filterMap Payload.intent? = intents := by
    rw [hintents, List.filterMap_map]
    exact List.filterMap_some
  rw [hback]
  exact returns_pure he'

/-- What a part of a call keeps of an attempt's facts. -/
structure Attempt.Onward (f f' : Attempt) : Prop where
  spawn : f'.spawn = f.spawn
  quiet : f'.quiet = f.quiet
  planDone : f'.planDone = f.planDone
  held : f.held → f'.held
  pending : f.ladderPending = true → f'.ladderPending = true

theorem Attempt.Onward.refl (f : Attempt) : f.Onward f := ⟨rfl, rfl, rfl, id, id⟩

section Parts

variable (reads : Reads)

/-- A stop that is not a restart's is watched: its ladder climbs, or its timer is armed. -/
theorem startStop_wrote (hw : Wrote e a c f f₁ none e₁) (hgen : e₁.generation a = c.generation) (hpos : 0 < c.generation)
    (hphase : c.phase = .stopping) (htasks : e₁.tasks = e.tasks) (hidle : f.ladderPending = false) :
    Returns (startStop reads a) e₁ .unit fun e₂ => ∃ f₂, Wrote e a c f f₂ none e₂ ∧ e₂.machines = e₁.machines ∧
      f₁.Onward f₂ ∧ (f₁.spawn = none → f₂.ladderPending = f₁.ladderPending) ∧
      (f₁.quiet = false → Watched e₂ a c f₂) := by
  refine returns_get_bind ((returns_known hw.self).bind ?_)
  rintro _ rfl
  cases hquiet : f₁.quiet with
  | true => exact returns_pure ⟨f₁, hw, rfl, .refl f₁, fun _ => rfl, nofun⟩
  | false =>
    rw [if_neg (by simp)]
    cases hspawn : f₁.spawn with
    | none =>
      refine (returns_logged _).bind ?_
      rintro _ rfl
      refine (returns_setKnown (hw.tell rfl).self _).bind ?_
      rintro _ rfl
      refine (returns_armTimer _).mono ?_
      rintro _ rfl
      have htold : Wrote e a c f f₁ none (e₁.tell (.killWrapper a)) := hw.tell rfl
      have hw₂ := (htold.amend
        (fun f => { f with awaitingSpawn := reads.killWrapper a }) rfl rfl).arm (hgen ▸ hpos)
      refine ⟨_, hw₂, ?_, ⟨rfl, rfl, rfl, id, id⟩, fun _ => rfl, fun _ => .inr (.inl ?_)⟩
      · obtain ⟨attempts, hrest⟩ := amend_rest (e₁.tell (.killWrapper a)) a fun f => { f with awaitingSpawn := reads.killWrapper a }
        rw [hrest]
        rfl
      · exact Dict.get?_set_self.trans (congrArg some hgen)
    | some spawn =>
      dsimp only
      cases hgroup : commandGroup (some spawn) with
      | none =>
        refine (returns_armTimer _).mono ?_
        rintro _ rfl
        exact ⟨f₁, hw.arm (hgen ▸ hpos), rfl, .refl f₁, fun _ => rfl,
          fun _ => .inr (.inl (Dict.get?_set_self.trans (congrArg some hgen)))⟩
      | some group =>
        refine (returns_startTask hw.self _).mono ?_
        rintro _ rfl
        refine ⟨_, hw.startTask htasks hidle (.inr ⟨hphase, hgen⟩), ?_, ⟨rfl, rfl, rfl, id, fun _ => rfl⟩, nofun,
          fun _ => .inr (.inr ⟨e₁.tasks.length, .climbing group (e₁.generation a), rfl, ?_, .inl ⟨group, by rw [hgen]⟩⟩)⟩
        · obtain ⟨attempts, hrest⟩ := amend_rest e₁ a (Attempt.climbs e₁.tasks.length)
          show (e₁.amend a (Attempt.climbs e₁.tasks.length)).machines = _
          rw [hrest]
        · exact List.getElem?_concat_length ..

/-- What is left of an ended attempt's command gets a task at most. -/
theorem whatIsLeft_wrote (hw : Wrote e a c f f₁ ending e₁) (hphase : c.phase = .ended) (htasks : e₁.tasks = e.tasks)
    (hpending : f₁.ladderPending = f.ladderPending) (outcome : AttemptOutcome) :
    Returns (whatIsLeft reads a outcome) e₁ .unit fun e₂ => ∃ f₂, Wrote e a c f f₂ ending e₂ ∧
      e₂.machines = e₁.machines ∧ f₁.Onward f₂ := by
  refine (returns_known hw.self).bind ?_
  rintro _ rfl
  by_cases hbusy : (f₁.ladderPending || f₁.failed) = true
  · rw [if_pos hbusy]
    exact returns_pure ⟨f₁, hw, rfl, .refl f₁⟩
  rw [if_neg hbusy]
  have hidle : f.ladderPending = false := by
    rw [← hpending]
    simp only [Bool.or_eq_true, not_or, Bool.not_eq_true] at hbusy
    exact hbusy.1
  cases leftOf reads a f₁ with
  | none => exact returns_pure ⟨f₁, hw, rfl, .refl f₁⟩
  | some group =>
    -- the answer of the leak's reading, which may hold the attempt
    have hleak : ∃ stopped, Returns (if outcome.kind = .natural then do
          if (reads.leaked a).2 then setKnown a fun f => { f with survived := true }
          return (reads.leaked a).1
        else return true : TierM Bool) e₁ stopped fun e₂ => ∃ f₂, Wrote e a c f f₂ ending e₂ ∧
      e₂.machines = e₁.machines ∧ e₂.tasks = e.tasks ∧ f₁.Onward f₂ := by
      by_cases hkind : outcome.kind = .natural
      · rw [if_pos hkind]
        rcases reads.leaked a with ⟨stopped, unread⟩
        refine ⟨stopped, ?_⟩
        cases unread with
        | false => exact returns_pure ⟨f₁, hw, rfl, htasks, .refl f₁⟩
        | true =>
          refine (returns_setKnown hw.self _).bind ?_
          rintro _ rfl
          obtain ⟨attempts, hrest⟩ := amend_rest e₁ a fun f => { f with survived := true }
          refine returns_pure ⟨_, hw.amend _ rfl rfl, by rw [hrest], by rw [hrest]; exact htasks, rfl, rfl, rfl, ?_, id⟩
          exact fun _ => rfl
      · rw [if_neg hkind]
        exact ⟨true, returns_pure ⟨f₁, hw, rfl, htasks, .refl f₁⟩⟩
    obtain ⟨stopped, hstopped⟩ := hleak
    refine hstopped.bind ?_
    rintro e₂ ⟨f₂, hw₂, hmachines, htasks₂, honward⟩
    cases stopped with
    | false => exact returns_pure ⟨f₂, hw₂, hmachines, honward⟩
    | true =>
      refine returns_get_bind ((returns_startTask hw₂.self _).mono ?_)
      rintro _ rfl
      obtain ⟨attempts, hrest⟩ := amend_rest e₂ a (Attempt.climbs e₂.tasks.length)
      refine ⟨_, hw₂.startTask htasks₂ hidle ?_, ?_, ⟨honward.spawn, honward.quiet, honward.planDone, honward.held, fun _ => rfl⟩⟩
      · split
        · exact .inl hphase
        · exact hphase
      · show (e₂.amend a (Attempt.climbs e₂.tasks.length)).machines = _
        rw [hrest]
        exact hmachines

/-- What a posted observation leaves of the attempt. -/
structure Posted (b : Board) (e : Tiers) (a : String) (c c' : Cell) (f f₁ f₂ : Attempt) (ending : Option AttemptOutcome)
    (e₁ e₂ : Tiers) : Prop where
  wrote : Wrote e a c' f f₂ ending e₂
  shows : (b.write a c').Shows e₂.machines
  fits : c'.Fits f₂
  steps : c.Steps c' ending
  onward : f₁.Onward f₂
  task : ∀ t : Task, f.ladderPending = true → t.At c → t.At c'
  watched : c'.phase = .stopping → f₁.quiet = false → (c' = c → Watched e₁ a c f₁) → Watched e₂ a c' f₂

theorem Cell.Fits.congr (h : c.Fits f) (hspawn : f₁.spawn = f.spawn) (hpending : f₁.ladderPending = f.ladderPending)
    (hplan : f₁.planDone = f.planDone) : c.Fits f₁ where
  spawning hp := by rw [hspawn, hpending]; exact h.spawning hp
  running hp := by rw [hspawn, hpending]; exact h.running hp
  stopping hp := by rw [hspawn, hpending]; exact h.stopping hp
  ended := h.ended
  planDone hdone := h.planDone (hplan ▸ hdone)

/-- An ended attempt's facts fit whatever they are. -/
theorem Cell.Fits.of_ended (h : c.phase = .ended) (ho : c.record.outcome.isSome) : c.Fits f where
  spawning hp := absurd (h.symm.trans hp) nofun
  running hp := absurd (h.symm.trans hp) nofun
  stopping hp := absurd (h.symm.trans hp) nofun
  ended _ := ho
  planDone _ := h

theorem Cell.Steps.refl (c : Cell) : c.Steps c none := ⟨fun _ => rfl, .inl, fun _ => rfl, id, fun _ => rfl⟩

/-- What `f₁` is when an observation is posted: the facts, with the spawn record if that is observed. -/
def Sight.Told (f f₁ : Attempt) (o : Sight) : Prop :=
  f₁.spawn = (match o with | .spawned spawn => some spawn | _ => f.spawn) ∧ f₁.ladderPending = f.ladderPending ∧
    f₁.planDone = f.planDone

/-- **A posted observation.** -/
theorem post_posted (hw : ∀ d, Wrote e a d f f₁ none e₁) (htasks : e₁.tasks = e.tasks) (hshows : b.Shows e₁.machines)
    (hc : b.cells a = some c) (hfit : c.Fits f) {o : Sight} (htold : o.Told f f₁)
    (hnew : ∀ spawn, o = .spawned spawn → f.spawn = none) {intents : List Intent}
    (hans : c.answer o = some (c', intents)) :
    Returns (post reads a o.event) e₁ .unit fun e₂ => ∃ f₂ ending, Posted b e a c c' f f₁ f₂ ending e₁ e₂ := by
  have hsees := hshows.sees hc o
  rw [hans] at hsees
  refine (returns_dispatchEvent hsees).bind ?_
  rintro _ ⟨m, hm, rfl⟩
  have hw' : ∀ d, Wrote e a d f f₁ none { e₁ with machines := m } := fun d =>
    ⟨(hw d).self, (hw d).others, (hw d).ladders, (hw d).timer, (hw d).timers, (hw d).owed, (hw d).replayed, (hw d).log⟩
  obtain ⟨hspawn, hpending, hplan⟩ := htold
  cases Cell.answer_cases hans with
  | stays hstays =>
    refine returns_pure ⟨f₁, none, hw' c, hm, ?_, .refl c, .refl f₁, fun _ _ => id, fun _ _ h => h rfl⟩
    by_cases hp : c.phase = .ended
    · exact .of_ended hp (hfit.ended hp)
    · refine hfit.congr ?_ hpending hplan
      cases o with
      | spawned spawn => exact absurd rfl (hstays hp spawn)
      | _ => exact hspawn
  | runs hphase hsight =>
    obtain ⟨-, hgeneration, hrecord, hidle⟩ := hfit.spawning hphase
    have hne : c.phase ≠ .ended := by simp [hphase]
    refine returns_pure ⟨f₁, none, hw' _, hm, ⟨nofun, fun _ => ⟨?_, hgeneration, hrecord, hpending.trans hidle⟩, nofun, nofun, ?_⟩,
      ⟨fun h => absurd h hne, fun h => absurd (hphase.symm.trans h) nofun, fun _ => rfl, id, fun _ => rfl⟩, .refl f₁,
      fun _ hp => absurd (hidle.symm.trans hp) Bool.false_ne_true, nofun⟩
    · rw [hspawn, hsight]
      rfl
    · exact fun hdone => absurd (hfit.planDone (hplan ▸ hdone)) hne
  | @stops cause hne hcause =>
    have hidle : f.ladderPending = false := by
      rcases hcause with ⟨hphase, -⟩ | ⟨hphase, -, spawn, hsight⟩
      · cases hp : c.phase with
        | spawning => exact (hfit.spawning hp).2.2.2
        | running => exact (hfit.running hp).2.2.2
        | stopping => exact absurd hp hphase
        | ended => exact absurd hp hne
      · exact (hfit.stopping hphase).2.2.2 (hnew spawn hsight)
    have hpos : 0 < (c.stops cause).1.generation := Int.lt_add_one_of_le (hfit.generation hne)
    refine Returns.bind (startStop_wrote reads (hw' _) (Board.Shows.generation hm Board.write_self) hpos rfl htasks hidle) ?_
    rintro e₂ ⟨f₂, hw₂, hmachines, honward, hsame, hwatched⟩
    refine Returns.bind (Q := (e₂ = ·)) (returns_pure rfl) ?_
    rintro _ rfl
    have houtcome : c.record.outcome = none :=
      Option.not_isSome_iff_eq_none.mp fun h => hne (hfit.outcome.mp h)
    refine returns_pure ⟨f₂, none, hw₂, hmachines ▸ hm, ⟨nofun, nofun, fun _ => ⟨hpos, ?_, houtcome, ?_⟩, nofun, ?_⟩,
      ⟨fun h => absurd h hne, fun _ => .inl rfl, ?_, id, fun _ => rfl⟩, honward, fun _ hp => absurd (hidle.symm.trans hp) Bool.false_ne_true,
      fun _ hquiet _ => hwatched hquiet⟩
    · rcases hcause with ⟨-, hcause⟩ | ⟨hphase, rfl, -⟩
      · exact hcause
      · exact (hfit.stopping hphase).2.1
    · intro hnone
      rw [hsame (honward.spawn ▸ hnone), hpending, hidle]
    · exact fun hdone => absurd (hfit.planDone (hplan ▸ honward.planDone ▸ hdone)) hne
    · intro hsome
      rcases hcause with ⟨hphase, -⟩ | ⟨-, rfl, -⟩
      · -- an attempt that was not stopped has no cause
        have hrecord : c.record = {} := by
          cases hp : c.phase with
          | spawning => exact (hfit.spawning hp).2.2.1
          | running => exact (hfit.running hp).2.2.1
          | stopping => exact absurd hp hphase
          | ended => exact absurd hp hne
        simp [hrecord] at hsome
      · rfl
  | @ends outcome hne =>
    refine Returns.bind (a := .unit) (Q := fun e₂ => ∃ f₂, Wrote e a (c.ends outcome).1 f f₂ (some outcome) e₂ ∧
      (b.write a (c.ends outcome).1).Shows e₂.machines ∧ f₁.Onward f₂) ?_ ?_
    · refine Returns.bind (whatIsLeft_wrote reads (hw' (c.ends outcome).1) rfl htasks hpending outcome) ?_
      rintro e₂ ⟨f₂, hw₂, hmachines, honward⟩
      refine (returns_logged _).mono ?_
      rintro _ rfl
      exact ⟨f₂, hw₂.outcome outcome, hmachines ▸ hm, honward⟩
    · rintro e₂ ⟨f₂, hw₂, hm₂, honward⟩
      refine Returns.bind (returns_modify rfl) ?_
      rintro _ rfl
      refine returns_pure ⟨f₂, some outcome, hw₂.owe _ ?_, hm₂, .of_ended rfl rfl, ⟨fun h => absurd h hne, fun _ => .inr rfl,
        fun _ => rfl, fun _ => rfl, fun h => absurd (hfit.outcome.mp h) hne⟩, honward, ?_, nofun⟩
      · intro x hx
        exact ⟨(Owed.cancelTimer.inj hx).symm, rfl⟩
      · intro t _ hat
        cases t with
        | closed => exact hat.elim
        | surviving => rfl
        | _ => exact .inl rfl

/-- What the tier makes sure of before it posts an observation: a spawn record is seen once, a
failed spawn left none, and a timer was armed. -/
def Sight.Due (f : Attempt) : Sight → Prop
  | .spawned _ | .failed _ => f.spawn = none
  | .timeout generation => 0 < generation
  | _ => True

/-- **A due observation has a row.** -/
theorem Sight.Due.answered {o : Sight} (hdue : o.Due f) (hfit : c.Fits f) : ∃ d intents, c.answer o = some (d, intents) := by
  by_cases hended : c.phase = .ended
  · exact ⟨c, [], if_pos hended⟩
  rw [Cell.answer, if_neg hended]
  have hrunning : f.spawn = none → c.phase ≠ .running := by
    intro hnone hp
    have hsome := (hfit.running hp).1
    simp [hnone] at hsome
  cases o with
  | spawned spawn =>
    rw [Cell.answerLive]
    cases hp : c.phase with
    | running => exact absurd hp (hrunning hdue)
    | ended => exact absurd hp hended
    | _ => exact ⟨_, _, rfl⟩
  | failed error => exact ⟨_, _, if_neg (hrunning hdue)⟩
  | stop cause =>
    rw [Cell.answerLive]
    split <;> exact ⟨_, _, rfl⟩
  | timeout g =>
    rw [Cell.answerLive]
    by_cases hg : g = c.generation
    · -- no timer of a running attempt is armed yet
      have hp : c.phase = .stopping := by
        have hpos : 0 < c.generation := hg ▸ hdue
        cases hp : c.phase with
        | spawning => exact absurd hpos (by simp [(hfit.spawning hp).2.1])
        | running => exact absurd hpos (by simp [(hfit.running hp).2.1])
        | stopping => rfl
        | ended => exact absurd hp hended
      rw [if_neg (not_not.mpr hg), if_pos hp]
      exact ⟨_, _, rfl⟩
    · rw [if_pos hg]
      exact ⟨_, _, rfl⟩
  | _ => exact ⟨_, _, rfl⟩

/-- A busy attempt is busy after what was observed of it: its plan is done by the wiring alone. -/
theorem Posted.busy {e₂ : Tiers} {f₂ : Attempt} (h : Posted b e a c c' f f₁ f₂ ending e₁ e₂) (hfit : c.Fits f)
    (hplan : f₁.planDone = f.planDone) (hpending : f₁.ladderPending = f.ladderPending) (hheld : f.held → f₁.held) :
    Busy c f → Busy c' f₂ := by
  intro hbusy
  by_cases hdone : f.planDone = true
  · rw [h.steps.ended (hfit.planDone hdone)]
    rcases hbusy with hp | hp | hp | hp
    · exact .inl hp
    · exact absurd (hp.symm.trans hdone) Bool.false_ne_true
    · exact .inr (.inr (.inl (h.onward.pending (hpending.trans hp))))
    · exact .inr (.inr (.inr (h.onward.held (hheld hp))))
  · exact .inr (.inl ((h.onward.planDone.trans hplan).trans (Bool.not_eq_true _ ▸ hdone)))

/-- **A due observation is posted, and the invariant is kept.** The state it is posted from is the
tier's with what the call wrote of the attempt before. -/
theorem Kept.post (h : Kept past X b e) (hc : b.cells a = some c) (hf : e.attempts.get? a = some f)
    (hw : ∀ d, Wrote e a d f f₁ none e₁) (htasks : e₁.tasks = e.tasks) (hmachines : e₁.machines = e.machines)
    (hquiet : f₁.quiet = false) (hheld : f.held → f₁.held) {o : Sight} (htold : o.Told f f₁) (hdue : o.Due f)
    (hX : ∀ x, x ≠ a → X x → Y x) (hwatch : ∀ intents, c.answer o = some (c, intents) → c.phase = .stopping →
      Y a ∨ Watched e₁ a c f₁) :
    Returns (post reads a o.event) e₁ .unit fun e₂ => ∃ d f₂ intents, c.answer o = some (d, intents) ∧
      Kept past Y (b.write a d) e₂ ∧ Onward b e (b.write a d) e₂ ∧ e₂.attempts.get? a = some f₂ ∧ f₁.Onward f₂ := by
  obtain ⟨d, intents, hans⟩ := hdue.answered (h.fits hc hf)
  refine (post_posted reads hw htasks (hmachines ▸ h.shows) hc (h.fits hc hf) htold ?_ hans).mono ?_
  · rintro spawn rfl
    exact hdue
  rintro e₂ ⟨f₂, ending, hp⟩
  refine ⟨d, f₂, intents, hans, ?_, hp.wrote.onward hc hp.steps.later hf (hp.busy (h.fits hc hf) htold.2.2 htold.2.1 hheld),
    hp.wrote.self, hp.onward⟩
  refine h.wrote hc hf hp.wrote hp.shows hp.fits (hp.onward.quiet.trans hquiet) hp.steps hp.task hX fun hstopping => ?_
  by_cases hsame : d = c
  · subst hsame
    exact (hwatch intents hans hstopping).imp_right fun hwatched => hp.watched hstopping hquiet fun _ => hwatched
  · exact .inr (hp.watched hstopping hquiet fun hd => absurd hd hsame)

end Parts

end Dsl41.Attempts
