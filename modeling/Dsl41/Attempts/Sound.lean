import Dsl41.Attempts.Table
import Dsl41.Attempts.Tier

/-!
# What the tiers keep

`Kept` is the invariant of the two tiers: the executor shows a board, each attempt's facts fit its
cell, each ladder's task and each timer belong to an attempt that takes them, and the log has told
each outcome once. `Wrote` is what one call writes of one attempt, and `Kept.wrote` carries the
invariant over it.
-/

namespace Dsl41.Attempts

open Dsl41.Infra Dsl41.StateMachine

variable {b b' : Board} {e e' : Tiers} {a x : String} {c c' : Cell} {f f' : Attempt}

/-! ## Reads of a board -/

theorem find_phase (p : Phase) : ATTEMPT_STATES.find? (· ∈ ATTEMPT.rest p.leaf) = some p.leaf := by cases p <;> decide

theorem find_life (p : LifePhase) : LIFECYCLE_STATES.find? (· ∈ ENGINE_LIFECYCLE.rest p.leaf) = some p.leaf := by
  cases p <;> decide

@[simp] theorem Phase.leaf_inj {p q : Phase} : p.leaf = q.leaf ↔ p = q := by cases p <;> cases q <;> decide

@[simp] theorem LifePhase.leaf_inj {p q : LifePhase} : p.leaf = q.leaf ↔ p = q := by cases p <;> cases q <;> decide

theorem Phase.unsettled {p : Phase} : p.leaf ∈ UNSETTLED ↔ p ≠ .ended := by cases p <;> decide

theorem Board.Shows.state (h : b.Shows e.machines) (hc : b.cells a = some c) : e.state a = c.phase.leaf := by
  obtain ⟨inst, hinst, hrest, -⟩ := h.held hc
  rw [Tiers.state, Tiers.leaf?, hinst]
  simp only [Option.bind_some, hrest.active, find_phase, Option.getD_some]

theorem Board.Shows.generation (h : b.Shows e.machines) (hc : b.cells a = some c) : e.generation a = c.generation := by
  obtain ⟨inst, hinst, -, -, hgeneration, -⟩ := h.held hc
  rw [Tiers.generation, hinst]
  exact hgeneration

theorem Board.Shows.record (h : b.Shows e.machines) (hc : b.cells a = some c) :
    e.machines.records.world.records a = c.record := by
  obtain ⟨inst, -, -, -, -, hrecord⟩ := h.held hc
  exact hrecord

theorem Board.Shows.engineState (h : b.Shows e.machines) : e.engineState = b.life.phase.leaf := by
  obtain ⟨inst, hinst, hrest⟩ := h.life
  rw [Tiers.engineState, Tiers.leaf?, hinst]
  simp only [Option.bind_some, hrest.active, find_life, Option.getD_some]

/-! ## The facts of an attempt -/

/-- The facts of an attempt go with its phase. -/
structure Cell.Fits (c : Cell) (f : Attempt) : Prop where
  spawning : c.phase = .spawning → f.spawn = none ∧ c.generation = 0 ∧ c.record = {} ∧ f.ladderPending = false
  running : c.phase = .running → f.spawn.isSome ∧ c.generation = 0 ∧ c.record = {} ∧ f.ladderPending = false
  stopping : c.phase = .stopping → 0 < c.generation ∧ c.record.cause.isSome ∧ c.record.outcome = none ∧
    (f.spawn = none → f.ladderPending = false)
  ended : c.phase = .ended → c.record.outcome.isSome
  planDone : f.planDone → c.phase = .ended

/-- An outcome is what an ended attempt has. -/
theorem Cell.Fits.outcome (h : c.Fits f) : c.record.outcome.isSome ↔ c.phase = .ended := by
  constructor
  · intro hsome
    cases hp : c.phase with
    | spawning => simp [(h.spawning hp).2.2.1] at hsome
    | running => simp [(h.running hp).2.2.1] at hsome
    | stopping => simp [(h.stopping hp).2.2.1] at hsome
    | ended => rfl
  · exact h.ended

theorem Cell.Fits.generation (h : c.Fits f) (hne : c.phase ≠ .ended) : 0 ≤ c.generation := by
  cases hp : c.phase with
  | spawning => exact (h.spawning hp).2.1 ▸ le_refl _
  | running => exact (h.running hp).2.1 ▸ le_refl _
  | stopping => exact le_of_lt (h.stopping hp).1
  | ended => exact absurd hp hne

/-- A task's attempt was stopped. A ladder climbs under the generation of its stop, and only an
ended attempt takes a survivor verdict. -/
def Task.At (c : Cell) : Task → Prop
  | .climbing _ generation => c.phase = .ended ∨ c.phase = .stopping ∧ generation = c.generation
  | .surviving _ => c.phase = .ended
  | .finished _ => c.phase = .ended ∨ c.phase = .stopping
  | .closed => False

theorem Task.At.stopped {t : Task} (h : t.At c) : c.phase = .ended ∨ c.phase = .stopping := by
  cases t with
  | climbing => exact h.imp_right And.left
  | surviving => exact .inl h
  | finished => exact h
  | closed => exact h.elim

/-- The attempt keeps the drain waiting. -/
def Busy (c : Cell) (f : Attempt) : Prop := c.phase ≠ .ended ∨ f.planDone = false ∨ f.ladderPending ∨ f.held

/-- A stopping attempt ends or is held in the end: its timer is armed, its ladder climbs, its
ladder's failure is still to be taken, or it is held. -/
def Watched (e : Tiers) (a : String) (c : Cell) (f : Attempt) : Prop :=
  f.held ∨ e.timers.get? a = some c.generation ∨
    ∃ i t, f.ladder = some i ∧ e.tasks[i]? = some (a, t) ∧
      ((∃ group, t = .climbing group c.generation) ∨ ∃ error, t = .finished (some error))

/-- The outcomes the log tells of an attempt. -/
def outcomesOf (a : String) (log : List Effect) : List AttemptOutcome :=
  log.filterMap fun
    | .recordOutcome x outcome => if x = a then some outcome else none
    | _ => none

@[simp] theorem outcomesOf_append {l l' : List Effect} : outcomesOf a (l ++ l') = outcomesOf a l ++ outcomesOf a l' :=
  List.filterMap_append ..

/-- The effects of the engine's life. -/
def Effect.ofLife : Effect → Bool
  | .journalDraining | .cancelWatchers | .armAbortDeadline _ | .recordCleanShutdown | .recordUncleanShutdown _
  | .journalShutdownDuringStartup | .exitProcess _ => true
  | _ => false

/-! ## The invariant -/

/-- The run ids the tier adopted, and those it adopted with an outcome. -/
structure Past where
  adopted : String → Prop
  closing : String → Prop

/-- The invariant of the two tiers. A stopping attempt that is not excused is watched. -/
structure Kept (past : Past) (excused : String → Prop) (b : Board) (e : Tiers) : Prop where
  shows : b.Shows e.machines
  known : ∀ a, (b.cells a).isSome ↔ (e.attempts.get? a).isSome
  fits : ∀ {a c f}, b.cells a = some c → e.attempts.get? a = some f → c.Fits f
  loud : ∀ {a f}, e.attempts.get? a = some f → f.quiet = false
  adopted : ∀ {a f}, e.attempts.get? a = some f → past.adopted a
  tasks : ∀ {i a t}, e.tasks[i]? = some (a, t) → t = .closed ∨
    ∃ c f, b.cells a = some c ∧ e.attempts.get? a = some f ∧ f.ladder = some i ∧ f.ladderPending = true ∧ t.At c
  pending : ∀ {a f}, e.attempts.get? a = some f → f.ladderPending = true →
    ∃ i t, f.ladder = some i ∧ e.tasks[i]? = some (a, t) ∧ t ≠ .closed
  timers : ∀ {a g}, e.timers.get? a = some g → 0 < g ∧ past.adopted a
  owed : ∀ {a}, .cancelTimer a ∈ e.owed → past.adopted a ∧ ∀ c, b.cells a = some c → c.phase = .ended
  watched : ∀ {a c f}, b.cells a = some c → e.attempts.get? a = some f → c.phase = .stopping →
    excused a ∨ Watched e a c f
  told : ∀ {a c}, b.cells a = some c → ¬ past.closing a → outcomesOf a e.log = c.record.outcome.toList
  closing : ∀ {a c}, b.cells a = some c → past.closing a → c.phase = .ended
  untold : ∀ {a}, ¬ past.adopted a ∨ past.closing a → outcomesOf a e.log = []
  forgotten : ∀ {a}, past.adopted a → ¬ past.closing a → b.cells a = none → ∃ outcome, outcomesOf a e.log = [outcome]

variable {past : Past} {X Y : String → Prop}

theorem Kept.cell (h : Kept past X b e) (hf : e.attempts.get? a = some f) : ∃ c, b.cells a = some c :=
  Option.isSome_iff_exists.mp ((h.known a).mpr (hf ▸ rfl))

theorem Kept.facts (h : Kept past X b e) (hc : b.cells a = some c) : ∃ f, e.attempts.get? a = some f :=
  Option.isSome_iff_exists.mp ((h.known a).mp (hc ▸ rfl))

/-- The tasks as they were, or with the task of one attempt's ladder written. -/
inductive Ladders (a : String) (c : Cell) (tasks : List (String × Task)) (f f' : Attempt) (tasks' : List (String × Task)) :
    Prop
  | same (htasks : tasks' = tasks) (hladder : f'.ladder = f.ladder) (hpending : f'.ladderPending = f.ladderPending)
  | writes (i : Nat) (t : Task) (htask : tasks'[i]? = some (a, t)) (hothers : ∀ j, j ≠ i → tasks'[j]? = tasks[j]?)
    (hown : ∀ x u, tasks[i]? = some (x, u) → x = a) (hone : f.ladderPending = true → f.ladder = some i)
    (hladder : f'.ladder = some i) (hpending : if f'.ladderPending = true then t.At c else t = .closed)

/-- What a call writes of one attempt: its facts, its ladder, its timer, what is owed and told of
it. The rest is as it was. -/
structure Wrote (e : Tiers) (a : String) (c : Cell) (f f' : Attempt) (ending : Option AttemptOutcome) (e' : Tiers) : Prop where
  self : e'.attempts.get? a = some f'
  others : ∀ {x}, x ≠ a → e'.attempts.get? x = e.attempts.get? x
  ladders : Ladders a c e.tasks f f' e'.tasks
  timer : ∀ {g}, e'.timers.get? a = some g → e.timers.get? a = some g ∨ 0 < g
  timers : ∀ {x}, x ≠ a → e'.timers.get? x = e.timers.get? x
  owed : ∃ l, e'.owed = l ++ e.owed ∧ ∀ x, .cancelTimer x ∈ l → x = a ∧ c.phase = .ended
  replayed : e'.replayed = e.replayed
  log : ∃ l, e'.log = e.log ++ l ∧ outcomesOf a l = ending.toList ∧ (∀ x, x ≠ a → outcomesOf x l = []) ∧
    ∀ effect ∈ l, effect.ofLife = false

/-- How a cell moves: an ended one stays, a stop is not taken back, and its first cause stands. -/
structure Cell.Steps (c c' : Cell) (ending : Option AttemptOutcome) : Prop where
  ended : c.phase = .ended → c' = c
  stopping : c.phase = .stopping → c'.phase = .stopping ∨ c'.phase = .ended
  cause : c.record.cause.isSome → c'.record.cause = c.record.cause
  outcome : c.record.outcome = none → c'.record.outcome = ending
  silent : c.record.outcome.isSome → ending = none

section Ladders

variable (h : Kept past X b e) (hc : b.cells a = some c) (hf : e.attempts.get? a = some f)
  (hl : Ladders a c' e.tasks f f' e'.tasks) (hself : e'.attempts.get? a = some f')
  (hothers : ∀ {x}, x ≠ a → e'.attempts.get? x = e.attempts.get? x)

include h hc hf hl hself hothers

/-- Every task is closed, or its attempt's ladder. -/
theorem Ladders.tasks (hmove : ∀ t : Task, f.ladderPending = true → t.At c → t.At c') {i : Nat} {t : Task} (ht : e'.tasks[i]? = some (x, t)) :
    t = .closed ∨ ∃ d g, (b.write a c').cells x = some d ∧ e'.attempts.get? x = some g ∧ g.ladder = some i ∧
      g.ladderPending = true ∧ t.At d := by
  cases hl with
  | same htasks hladder hpending =>
    obtain hclosed | ⟨d, g, hd, hg, hi, hp, hat⟩ := h.tasks (htasks ▸ ht)
    · exact .inl hclosed
    by_cases hx : x = a
    · subst hx
      obtain rfl := Option.some.inj (hd.symm.trans hc)
      obtain rfl := Option.some.inj (hg.symm.trans hf)
      exact .inr ⟨c', f', Board.write_self, hself, hladder.trans hi, hpending.trans hp, hmove t hp hat⟩
    · exact .inr ⟨d, g, (Board.write_ne hx).trans hd, (hothers hx).trans hg, hi, hp, hat⟩
  | writes j u htask hrest hown hone hladder hpending =>
    by_cases hij : i = j
    · subst hij
      obtain ⟨rfl, rfl⟩ := Prod.mk.inj (Option.some.inj (htask.symm.trans ht))
      by_cases hp : f'.ladderPending = true
      · rw [if_pos hp] at hpending
        exact .inr ⟨c', f', Board.write_self, hself, hladder, hp, hpending⟩
      · rw [if_neg hp] at hpending
        exact .inl hpending
    · obtain hclosed | ⟨d, g, hd, hg, hi, hp, hat⟩ := h.tasks ((hrest i hij).symm.trans ht)
      · exact .inl hclosed
      by_cases hx : x = a
      · subst hx
        -- the attempt has one task at most
        obtain rfl := Option.some.inj (hg.symm.trans hf)
        exact absurd (Option.some.inj (hi.symm.trans (hone hp))) hij
      · exact .inr ⟨d, g, (Board.write_ne hx).trans hd, (hothers hx).trans hg, hi, hp, hat⟩

/-- A pending ladder has its task. -/
theorem Ladders.pending {g : Attempt} (hg : e'.attempts.get? x = some g) (hp : g.ladderPending = true) :
    ∃ i t, g.ladder = some i ∧ e'.tasks[i]? = some (x, t) ∧ t ≠ .closed := by
  by_cases hx : x = a
  · subst hx
    obtain rfl := Option.some.inj (hself.symm.trans hg)
    cases hl with
    | same htasks hladder hpending =>
      obtain ⟨i, t, hi, ht, hne⟩ := h.pending hf (hpending ▸ hp)
      exact ⟨i, t, hladder.trans hi, htasks ▸ ht, hne⟩
    | writes j u htask hrest hown hone hladder hpending =>
      rw [if_pos hp] at hpending
      exact ⟨j, u, hladder, htask, fun hu => by rw [hu] at hpending; exact hpending⟩
  · obtain ⟨i, t, hi, ht, hne⟩ := h.pending ((hothers hx).symm.trans hg) hp
    refine ⟨i, t, hi, ?_, hne⟩
    cases hl with
    | same htasks => exact htasks ▸ ht
    | writes j u htask hrest hown =>
      refine (hrest i ?_).trans ht
      rintro rfl
      exact hx (hown x t ht)

omit h hc hf hself hothers in
/-- Another attempt's task is as it was. -/
theorem Ladders.other {i : Nat} {t : Task} (hx : x ≠ a) (ht : e.tasks[i]? = some (x, t)) : e'.tasks[i]? = some (x, t) := by
  cases hl with
  | same htasks => exact htasks ▸ ht
  | writes j u htask hrest hown =>
    refine (hrest i ?_).trans ht
    rintro rfl
    exact hx (hown x t ht)

end Ladders

/-- **The invariant over what one call writes of one attempt.** -/
theorem Kept.wrote (h : Kept past X b e) (hc : b.cells a = some c) (hf : e.attempts.get? a = some f)
    {ending : Option AttemptOutcome} (hw : Wrote e a c' f f' ending e') (hshows : (b.write a c').Shows e'.machines)
    (hfits : c'.Fits f') (hloud : f'.quiet = false) (hsteps : c.Steps c' ending) (hmove : ∀ t : Task, f.ladderPending = true → t.At c → t.At c')
    (hX : ∀ x, x ≠ a → X x → Y x) (hwatch : c'.phase = .stopping → Y a ∨ Watched e' a c' f') :
    Kept past Y (b.write a c') e' where
  shows := hshows
  known x := by
    by_cases hx : x = a
    · subst hx
      simp [hw.self]
    · rw [Board.write_ne hx, hw.others hx]
      exact h.known x
  fits {x d g} hd hg := by
    by_cases hx : x = a
    · subst hx
      obtain rfl := Option.some.inj (Board.write_self.symm.trans hd)
      obtain rfl := Option.some.inj (hw.self.symm.trans hg)
      exact hfits
    · exact h.fits ((Board.write_ne hx).symm.trans hd) ((hw.others hx).symm.trans hg)
  loud {x g} hg := by
    by_cases hx : x = a
    · subst hx
      obtain rfl := Option.some.inj (hw.self.symm.trans hg)
      exact hloud
    · exact h.loud ((hw.others hx).symm.trans hg)
  adopted {x g} hg := by
    by_cases hx : x = a
    · exact hx ▸ h.adopted hf
    · exact h.adopted ((hw.others hx).symm.trans hg)
  tasks := hw.ladders.tasks h hc hf hw.self hw.others hmove
  pending := hw.ladders.pending h hc hf hw.self hw.others
  timers {x g} hg := by
    by_cases hx : x = a
    · subst hx
      exact (hw.timer hg).elim h.timers fun hpos => ⟨hpos, h.adopted hf⟩
    · exact h.timers ((hw.timers hx).symm.trans hg)
  owed {x} hx := by
    obtain ⟨l, hl, hended⟩ := hw.owed
    rw [hl, List.mem_append] at hx
    by_cases hxa : x = a
    · subst hxa
      refine ⟨h.adopted hf, fun d hd => ?_⟩
      obtain rfl := Option.some.inj (Board.write_self.symm.trans hd)
      rcases hx with hx | hx
      · exact (hended x hx).2
      · exact hsteps.ended ((h.owed hx).2 c hc) ▸ (h.owed hx).2 c hc
    · obtain hx | hx := hx
      · exact absurd (hended x hx).1 hxa
      · rw [Board.write_ne hxa]
        exact h.owed hx
  watched {x d g} hd hg hp := by
    by_cases hx : x = a
    · subst hx
      obtain rfl := Option.some.inj (Board.write_self.symm.trans hd)
      obtain rfl := Option.some.inj (hw.self.symm.trans hg)
      exact hwatch hp
    · rcases h.watched ((Board.write_ne hx).symm.trans hd) ((hw.others hx).symm.trans hg) hp with hex | hwatched
      · exact .inl (hX x hx hex)
      · refine .inr (hwatched.imp_right (Or.imp (fun ht => (hw.timers hx).trans ht) ?_))
        rintro ⟨i, t, hi, ht, hcase⟩
        exact ⟨i, t, hi, hw.ladders.other hx ht, hcase⟩
  told {x d} hd hclosing := by
    obtain ⟨l, hl, hself, hothers, -⟩ := hw.log
    rw [hl, outcomesOf_append]
    by_cases hx : x = a
    · subst hx
      obtain rfl := Option.some.inj (Board.write_self.symm.trans hd)
      rw [h.told hc hclosing, hself]
      rcases ho : c.record.outcome with _ | outcome
      · rw [hsteps.outcome ho]
        rfl
      · have hsome : c.record.outcome.isSome := ho ▸ rfl
        rw [hsteps.silent hsome, hsteps.ended ((h.fits hc hf).outcome.mp hsome), ho]
        rfl
    · rw [hothers x hx, List.append_nil]
      exact h.told ((Board.write_ne hx).symm.trans hd) hclosing
  closing {x d} hd hclosing := by
    by_cases hx : x = a
    · subst hx
      obtain rfl := Option.some.inj (Board.write_self.symm.trans hd)
      have hended := h.closing hc hclosing
      exact hsteps.ended hended ▸ hended
    · exact h.closing ((Board.write_ne hx).symm.trans hd) hclosing
  untold {x} hx := by
    obtain ⟨l, hl, hself, hothers, -⟩ := hw.log
    rw [hl, outcomesOf_append, h.untold hx, List.nil_append]
    by_cases hxa : x = a
    · subst hxa
      have hended : c.phase = .ended := hx.elim (fun h' => absurd (h.adopted hf) h') (h.closing hc)
      rw [hself, hsteps.silent ((h.fits hc hf).ended hended)]
      rfl
    · exact hothers x hxa
  forgotten {x} hadopted hclosing hnone := by
    obtain ⟨l, hl, hself, hothers, -⟩ := hw.log
    have hx : x ≠ a := by
      rintro rfl
      simp at hnone
    rw [hl, outcomesOf_append, hothers x hx, List.append_nil]
    exact h.forgotten hadopted hclosing ((Board.write_ne hx).symm.trans hnone)

/-! ## How the tiers move -/

/-- An ended attempt stays, a stop is not taken back, and its first cause stands. -/
structure Cell.Later (c c' : Cell) : Prop where
  ended : c.phase = .ended → c' = c
  stopping : c.phase = .stopping → c'.phase = .stopping ∨ c'.phase = .ended
  cause : c.record.cause.isSome → c'.record.cause = c.record.cause

theorem Cell.Later.refl (c : Cell) : c.Later c := ⟨fun _ => rfl, .inl, fun _ => rfl⟩

theorem Cell.Later.trans {c'' : Cell} (h : c.Later c') (h' : c'.Later c'') : c.Later c'' where
  ended hp := by rw [h'.ended (h.ended hp ▸ hp), h.ended hp]
  stopping hp := (h.stopping hp).elim h'.stopping fun hp' => .inr (h'.ended hp' ▸ hp')
  cause hc := (h'.cause (by rw [h.cause hc]; exact hc)).trans (h.cause hc)

theorem Cell.Steps.later {ending : Option AttemptOutcome} (h : c.Steps c' ending) : c.Later c' := ⟨h.ended, h.stopping, h.cause⟩

/-- How the calls on the attempts move the tiers: the engine's life stays, and no attempt comes or
goes. -/
structure Forth (b : Board) (e : Tiers) (b' : Board) (e' : Tiers) : Prop where
  life : b'.life = b.life
  cells : ∀ {x c}, b.cells x = some c → ∃ c', b'.cells x = some c' ∧ c.Later c'
  absent : ∀ {x}, b.cells x = none → b'.cells x = none
  replayed : e'.replayed = e.replayed
  log : ∃ l, e'.log = e.log ++ l ∧ ∀ effect ∈ l, effect.ofLife = false

theorem Forth.refl (b : Board) (e : Tiers) : Forth b e b e :=
  ⟨rfl, fun hc => ⟨_, hc, .refl _⟩, id, rfl, [], (List.append_nil _).symm, fun _ h => absurd h List.not_mem_nil⟩

theorem Forth.trans {b'' : Board} {e'' : Tiers} (h : Forth b e b' e') (h' : Forth b' e' b'' e'') : Forth b e b'' e'' where
  life := h'.life.trans h.life
  cells hc := by
    obtain ⟨c', hc', hlater⟩ := h.cells hc
    obtain ⟨c'', hc'', hlater'⟩ := h'.cells hc'
    exact ⟨c'', hc'', hlater.trans hlater'⟩
  absent hc := h'.absent (h.absent hc)
  replayed := h'.replayed.trans h.replayed
  log := by
    obtain ⟨l, hl, hall⟩ := h.log
    obtain ⟨l', hl', hall'⟩ := h'.log
    refine ⟨l ++ l', by rw [hl', hl, List.append_assoc], fun effect hmem => ?_⟩
    exact (List.mem_append.mp hmem).elim (hall effect) (hall' effect)

/-- The tiers moved, and what kept a drain waiting keeps it waiting. -/
structure Onward (b : Board) (e : Tiers) (b' : Board) (e' : Tiers) : Prop extends Forth b e b' e' where
  busy : ∀ {x c f}, b.cells x = some c → e.attempts.get? x = some f → Busy c f →
    ∃ c' f', b'.cells x = some c' ∧ e'.attempts.get? x = some f' ∧ Busy c' f'
  settled : .settled ∈ e.owed → .settled ∈ e'.owed

theorem Onward.refl (b : Board) (e : Tiers) : Onward b e b e :=
  ⟨.refl b e, fun hc hf hbusy => ⟨_, _, hc, hf, hbusy⟩, id⟩

theorem Onward.trans {b'' : Board} {e'' : Tiers} (h : Onward b e b' e') (h' : Onward b' e' b'' e'') : Onward b e b'' e'' where
  toForth := h.toForth.trans h'.toForth
  busy hc hf hbusy := by
    obtain ⟨c', f', hc', hf', hbusy'⟩ := h.busy hc hf hbusy
    exact h'.busy hc' hf' hbusy'
  settled hs := h'.settled (h.settled hs)

section Writes

variable {ending : Option AttemptOutcome} (hw : Wrote e a c' f f' ending e') (hc : b.cells a = some c) (hlater : c.Later c')

include hw hc hlater

/-- What one call writes of one attempt moves the tiers. -/
theorem Wrote.forth : Forth b e (b.write a c') e' where
  life := rfl
  cells {x d} hd := by
    by_cases hx : x = a
    · subst hx
      obtain rfl := Option.some.inj (hd.symm.trans hc)
      exact ⟨c', Board.write_self, hlater⟩
    · exact ⟨d, (Board.write_ne hx).trans hd, .refl d⟩
  absent {x} hnone := by
    have hx : x ≠ a := by
      rintro rfl
      exact absurd (hnone.symm.trans hc) nofun
    exact (Board.write_ne hx).trans hnone
  replayed := hw.replayed
  log := by
    obtain ⟨l, hl, -, -, hlife⟩ := hw.log
    exact ⟨l, hl, hlife⟩

theorem Wrote.onward (hf : e.attempts.get? a = some f) (hbusy : Busy c f → Busy c' f') : Onward b e (b.write a c') e' where
  toForth := hw.forth hc hlater
  busy {x d g} hd hg hb := by
    by_cases hx : x = a
    · subst hx
      obtain rfl := Option.some.inj (hd.symm.trans hc)
      obtain rfl := Option.some.inj (hg.symm.trans hf)
      exact ⟨c', f', Board.write_self, hw.self, hbusy hb⟩
    · exact ⟨d, g, (Board.write_ne hx).trans hd, (hw.others hx).trans hg, hb⟩
  settled hs := by
    obtain ⟨l, hl, -⟩ := hw.owed
    rw [hl]
    exact List.mem_append_right _ hs

end Writes

end Dsl41.Attempts
