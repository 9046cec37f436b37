import Dsl41.Attempts.Posts

/-!
# The calls on the attempts

For each call of the attempt tier on an attempt that it knows: it returns, keeps the invariant and
moves the tiers on. A call on an attempt it does not know refuses.
-/

namespace Dsl41.Attempts

open Dsl41.Infra Dsl41.Infra.Effect Dsl41.StateMachine

variable {b : Board} {e e' : Tiers} {a x : String} {c d : Cell} {f : Attempt} {past : Past} {X Y : String → Prop}

/-- The invariant, with the tiers moved on. -/
def Moved (past : Past) (X : String → Prop) (b : Board) (e e' : Tiers) : Prop :=
  ∃ b', Kept past X b' e' ∧ Onward b e b' e'

theorem Moved.refl (h : Kept past X b e) : Moved past X b e e := ⟨b, h, .refl b e⟩

/-- An attempt stays known. -/
theorem Moved.known (h : Moved past X b e e') (hc : b.cells a = some c) :
    ∃ b' c' f', Kept past X b' e' ∧ Onward b e b' e' ∧ b'.cells a = some c' ∧ e'.attempts.get? a = some f' ∧ c.Later c' := by
  obtain ⟨b', hkept, honward⟩ := h
  obtain ⟨c', hc', hlater⟩ := honward.cells hc
  obtain ⟨f', hf'⟩ := hkept.facts hc'
  exact ⟨b', c', f', hkept, honward, hc', hf', hlater⟩

theorem Moved.trans {b' : Board} {e'' : Tiers} (h : Onward b e b' e') (h' : Moved past X b' e' e'') : Moved past X b e e'' := by
  obtain ⟨b'', hkept, honward⟩ := h'
  exact ⟨b'', hkept, h.trans honward⟩

/-! ## Refusals -/

/-- The computation raises and changes nothing. -/
def Refuses {α : Type} (m : TierM α) (e : Tiers) : Prop := ∃ err, m.result e = .error err ∧ m.after e = e

theorem Refuses.bind {α β : Type} {m : TierM α} {g : α → TierM β} (h : Refuses m e) : Refuses (m >>= g) e := by
  obtain ⟨err, hresult, hafter⟩ := h
  refine ⟨err, ?_, ?_⟩
  · rw [result_bind, hresult]
  · rw [after_bind, hresult]
    exact hafter

theorem known_refuses (hf : e.attempts.get? a = none) : Refuses (known a) e := by
  refine ⟨TierError.unknown a, ?_, ?_⟩
  · simp [known, result_bind, hf]
  · simp [known, after_bind, hf]

theorem setKnown_refuses (hf : e.attempts.get? a = none) (g : Attempt → Attempt) : Refuses (setKnown a g) e :=
  (known_refuses hf).bind

/-! ## The observations -/

section Calls

variable (reads : Reads)

theorem sees_told {o : Sight} (ho : ∀ spawn, o ≠ .spawned spawn) (f : Attempt) : o.Told f f := by
  refine ⟨?_, rfl, rfl⟩
  cases o with
  | spawned spawn => exact absurd rfl (ho spawn)
  | _ => rfl

/-- An observation posted at once. -/
theorem post_moves (h : Kept past X b e) (hc : b.cells a = some c) (hf : e.attempts.get? a = some f) {o : Sight}
    (ho : ∀ spawn, o ≠ .spawned spawn) (hdue : o.Due f) (hX : ∀ x, x ≠ a → X x → Y x)
    (hwatch : ∀ intents, c.answer o = some (c, intents) → c.phase = .stopping → Y a ∨ Watched e a c f) :
    Returns (post reads a o.event) e .unit (Moved past Y b e) := by
  refine (h.post reads hc hf (fun _ => .refl hf) rfl rfl (h.loud hf) id (sees_told ho f) hdue hX hwatch).mono ?_
  rintro e' ⟨d, f', intents, -, hkept, honward, -⟩
  exact ⟨_, hkept, honward⟩

theorem post_kept (h : Kept past X b e) (hc : b.cells a = some c) (hf : e.attempts.get? a = some f) {o : Sight}
    (ho : ∀ spawn, o ≠ .spawned spawn) (hdue : o.Due f) : Returns (post reads a o.event) e .unit (Moved past X b e) :=
  post_moves reads h hc hf ho hdue (fun _ _ => id) fun _ _ => h.watched hc hf

theorem engineDied_moves (h : Kept past X b e) (hc : b.cells a = some c) (hf : e.attempts.get? a = some f)
    (outcome : Option AttemptOutcome) : Returns (engineDied reads a outcome) e .unit (Moved past X b e) :=
  post_kept reads h hc hf (o := .died outcome) nofun trivial

theorem stopOne_moves (h : Kept past X b e) (hc : b.cells a = some c) (hf : e.attempts.get? a = some f) (cause : String) :
    Returns (stopOne reads a cause) e .unit (Moved past X b e) := by
  refine (returns_known hf).bind ?_
  rintro _ rfl
  exact post_kept reads h hc hf (o := .stop cause) nofun trivial

theorem spawnFailed_moves (h : Kept past X b e) (hc : b.cells a = some c) (hf : e.attempts.get? a = some f)
    (error : Option String) : Returns (spawnFailed reads a error) e .unit (Moved past X b e) := by
  refine (returns_known hf).bind ?_
  rintro _ rfl
  cases hspawn : f.spawn with
  | some spawn => exact returns_pure (.refl h)
  | none => exact post_kept reads h hc hf (o := .failed error) nofun hspawn

/-- The spawn record is seen. Where it makes a stopping attempt's ladder run, the attempt is watched. -/
theorem spawnRecorded_moves (h : Kept past X b e) (hc : b.cells a = some c) (hf : e.attempts.get? a = some f) (spawn : Fields)
    (hX : ∀ x, x ≠ a → X x → Y x) (hY : f.spawn.isSome ∨ c.phase ≠ .stopping → X a → Y a) :
    Returns (spawnRecorded reads a spawn) e .unit (Moved past Y b e) := by
  have hsame : (∀ x, X x → Y x) → Kept past Y b e := fun hXY =>
    { h with watched := fun hd hg hp => (h.watched hd hg hp).imp_left (hXY _) }
  refine (returns_known hf).bind ?_
  rintro _ rfl
  cases hspawn : f.spawn with
  | some spawn' =>
    refine returns_pure (.refl (hsame fun x hx => ?_))
    by_cases hxa : x = a
    · exact hxa ▸ hY (.inl (hspawn ▸ rfl)) (hxa ▸ hx)
    · exact hX x hxa hx
  | none =>
    refine (returns_setKnown hf _).bind ?_
    rintro _ rfl
    obtain ⟨attempts, hrest⟩ := amend_rest e a fun f => { f with spawn := some spawn }
    refine (h.post reads hc hf (fun d => (Wrote.refl hf).amend _ rfl rfl) (by rw [hrest]) (by rw [hrest])
      (h.loud (f := f) hf) id (o := .spawned spawn) ⟨rfl, rfl, rfl⟩ hspawn hX ?_).mono ?_
    · intro intents hans hstopping
      -- the ladder runs again, under a new generation
      rw [Cell.answer, if_neg (by simp [hstopping]), Cell.answerLive, hstopping] at hans
      have hgeneration := congrArg (fun p => p.1.generation) (Option.some.inj hans)
      simp only [Cell.stops] at hgeneration
      omega
    · rintro e' ⟨d, f', intents, -, hkept, honward, -⟩
      exact ⟨_, hkept, honward⟩

/-- An observation that ends a stopping attempt leaves none to be watched. -/
theorem ends_unwatched {o : Sight} (outcome : AttemptOutcome) (ho : c.phase = .stopping → c.answer o = some (c.ends outcome))
    {intents : List Intent} (hans : c.answer o = some (c, intents)) (hp : c.phase = .stopping) : False := by
  have hphase := congrArg (fun p => p.1.phase) (Option.some.inj ((ho hp).symm.trans hans))
  exact absurd (hphase.trans hp) nofun

/-- The status record ends every attempt that did not end. -/
theorem statusRecorded_moves (h : Kept past X b e) (hc : b.cells a = some c) (hf : e.attempts.get? a = some f)
    (status : Fields) (hX : ∀ x, x ≠ a → X x → Y x) :
    Returns (statusRecorded reads a status) e .unit (Moved past Y b e) := by
  refine (returns_known hf).bind ?_
  rintro _ rfl
  refine returns_get_bind ?_
  set record := exitRecordFromStatus status (e.state a = "STOPPING") f.spawn
  -- the state the record is posted from
  have hlate : ∀ late, Returns (post reads a { name := EXIT_RECORDED, payload := .exit record }) { e with lateRecords := late }
      .unit (Moved past Y b e) := by
    intro late
    have hw : ∀ d, Wrote e a d f f none { e with lateRecords := late } := fun d =>
      have hw := Wrote.refl (c := d) hf
      ⟨hw.self, hw.others, hw.ladders, hw.timer, hw.timers, hw.owed, hw.replayed, hw.log⟩
    refine (h.post reads hc hf hw rfl rfl (h.loud hf) id (o := .exited record) (sees_told (by simp) f) trivial hX ?_).mono ?_
    · intro intents hans hp
      exact (ends_unwatched _ (fun hp => by rw [Cell.answer, if_neg (by simp [hp])]; rfl) hans hp).elim
    · rintro e' ⟨d, f', intents, -, hkept, honward, -⟩
      exact ⟨_, hkept, honward⟩
  by_cases hended : e.state a = "ENDED"
  · rw [if_pos hended]
    refine Returns.bind (returns_modify rfl) ?_
    rintro _ rfl
    exact hlate _
  · rw [if_neg hended]
    exact hlate e.lateRecords

theorem spawnSeen_moves (h : Kept past X b e) (hc : b.cells a = some c) (hf : e.attempts.get? a = some f)
    (spawn : Option Fields) : Returns (spawnSeen reads a f spawn) e .unit (Moved past X b e) := by
  cases spawn with
  | none => exact returns_pure (.refl h)
  | some spawn =>
    rw [spawnSeen]
    split
    · exact spawnRecorded_moves reads h hc hf spawn (fun _ _ => id) fun _ => id
    · exact returns_pure (.refl h)

/-- The wrapper is gone: its command is stopped while it lives, or the attempt ends. -/
theorem wrapperExited_moves (h : Kept past X b e) (hc : b.cells a = some c) (hf : e.attempts.get? a = some f)
    (spawn : Option Fields) : Returns (wrapperExited reads a spawn) e .unit (Moved past X b e) := by
  refine (returns_known hf).bind ?_
  rintro _ rfl
  refine (spawnSeen_moves reads h hc hf spawn).bind ?_
  intro e₁ hmoved
  obtain ⟨b₁, c₁, f₁, hkept, honward, hc₁, hf₁, -⟩ := hmoved.known hc
  refine (returns_known hf₁).bind ?_
  rintro _ rfl
  have hgone : Returns (post reads a { name := WRAPPER_GONE, payload := .empty }) e₁ .unit (Moved past X b e) :=
    (post_kept reads hkept hc₁ hf₁ (o := .gone) nofun trivial).mono fun _ => .trans honward
  cases commandGroup f₁.spawn with
  | none => exact hgone
  | some group =>
    dsimp only
    split
    · exact (stopOne_moves reads hkept hc₁ hf₁ _).mono fun _ => .trans honward
    · exact hgone

/-- A read of a stopping attempt's timeout that told nothing ends the attempt, or it is watched: the timer is
armed again, or the command that outlives its stop holds it. -/
theorem timedOut_moves (h : Kept past X b e) (hc : b.cells a = some c) (hf : e.attempts.get? a = some f)
    (hp : c.phase = .stopping) (hX : ∀ x, x ≠ a → X x → Y x) :
    Returns (timedOut reads a c.generation) e .unit (Moved past Y b e) := by
  have hpos := ((h.fits hc hf).stopping hp).1
  -- the attempt and its board stay; it is watched from here
  have hwatch : ∀ {e₁ e₂ f₁}, Wrote e a c f f₁ none e₂ → e₂.machines = e.machines → f.Onward f₁ →
      f₁.ladderPending = f.ladderPending → Watched e₂ a c f₁ → e₂ = e₁ → Moved past Y b e e₁ := by
    rintro e₁ _ f₁ hw hmachines honward hpending hwatched rfl
    have hb : b.write a c = b := Board.write_same hc
    refine ⟨b.write a c, h.wrote hc hf hw (hb.symm ▸ hmachines ▸ h.shows) ?_ (honward.quiet.trans (h.loud hf)) (.refl c)
      (fun _ _ => id) hX fun _ => .inr hwatched, hw.onward hc (.refl c) hf ?_⟩
    · exact (h.fits hc hf).congr honward.spawn hpending honward.planDone
    · exact fun _ => .inl (by simp [hp])
  have hsurvives : ∀ e₁, (∀ d, Wrote e a d f f none e₁) → e₁.machines = e.machines →
      Returns (survives a) e₁ .unit (Moved past Y b e) := by
    intro e₁ hw hmachines
    refine (returns_setKnown (hw c).self _).bind ?_
    rintro _ rfl
    refine (returns_logged _).mono ?_
    rintro _ rfl
    obtain ⟨attempts, hrest⟩ := amend_rest e₁ a fun f => { f with survived := true }
    exact hwatch (((hw c).amend _ rfl rfl).tell rfl) (by rw [hrest]; exact hmachines) ⟨rfl, rfl, rfl, fun _ => rfl, id⟩ rfl
      (.inl rfl) rfl
  have hends : ∀ e₁, (∀ d, Wrote e a d f f none e₁) → e₁.tasks = e.tasks → e₁.machines = e.machines →
      Returns (post reads a { name := RECORD_TIMEOUT, payload := .empty, generation := some c.generation }) e₁ .unit
        (Moved past Y b e) := by
    intro e₁ hw htasks hmachines
    refine (h.post reads hc hf hw htasks hmachines (h.loud hf) id (o := .timeout c.generation) (sees_told (by simp) f) hpos hX
      fun intents hans _ => ?_).mono ?_
    · refine (ends_unwatched { kind := .unobservable, cause := c.record.cause } (fun hp => ?_) hans hp).elim
      rw [Cell.answer, if_neg (by simp [hp]), Cell.answerLive, if_neg (by simp), if_pos hp]
    · rintro e' ⟨d, f', intents, -, hkept, honward, -⟩
      exact ⟨_, hkept, honward⟩
  refine (returns_known hf).bind ?_
  rintro _ rfl
  by_cases hkill : (f.awaitingSpawn && f.spawn.isNone) = true
  · have hw : ∀ d, Wrote e a d f f none (e.tell (.killWrapper a)) := fun d => (Wrote.refl hf).tell rfl
    simp only [hkill, if_true, Bool.true_and]
    refine (returns_logged _).bind ?_
    rintro _ rfl
    split
    · refine (returns_armTimer _).mono ?_
      rintro _ rfl
      exact hwatch ((hw c).arm hpos) rfl (.refl f) rfl (.inr (.inl Dict.get?_set_self)) rfl
    · split
      · exact hsurvives _ hw rfl
      · exact hends _ hw rfl rfl
  · simp only [hkill, Bool.false_and, Bool.false_eq_true, if_false]
    split
    · exact hsurvives e (fun _ => .refl hf) rfl
    · exact hends e (fun _ => .refl hf) rfl rfl

theorem Kept.atPhase (h : Kept past X b e) (hc : b.cells a = some c) {p : Phase} : e.state a = p.leaf ↔ c.phase = p := by
  rw [h.shows.state hc, Phase.leaf_inj]

/-- A timer that fired: an attempt that was watched by it ends, or it is watched again. -/
theorem recordTimeout_moves (h : Kept past X b e) (hc : b.cells a = some c) (hf : e.attempts.get? a = some f) {g : Int}
    (hg : 0 < g) (hX : ∀ x, x ≠ a → X x → Y x) (hstale : c.phase = .stopping → g ≠ c.generation → Y a ∨ Watched e a c f) :
    Returns (recordTimeout reads a g) e .unit (Moved past Y b e) := by
  refine returns_get_bind ?_
  rw [hf]
  dsimp only
  by_cases hcurrent : e.state a = "STOPPING" ∧ g = e.generation a
  · rw [if_pos hcurrent]
    obtain ⟨hstate, hgen⟩ := hcurrent
    have hp : c.phase = .stopping := (h.atPhase hc (p := .stopping)).mp hstate
    rw [h.shows.generation hc] at hgen
    subst hgen
    generalize (reads.spool a).1 = spawn, (reads.spool a).2 = status
    by_cases hlaunched : spawn.isSome = true ∧ f.spawn.isNone = true
    · obtain ⟨hsome, hnone⟩ := hlaunched
      obtain ⟨spawn, rfl⟩ := Option.isSome_iff_exists.mp hsome
      have hspawned : Returns (spawnSeen reads a f (some spawn)) e .unit (Moved past Y b e) := by
        rw [spawnSeen, if_pos hnone]
        refine spawnRecorded_moves reads h hc hf spawn hX fun hor => ?_
        rcases hor with hor | hor
        · exact absurd hor (by simpa using hnone)
        · exact absurd hp hor
      refine hspawned.bind ?_
      intro e₁ hmoved
      obtain ⟨b₁, c₁, f₁, hkept, honward, hc₁, hf₁, -⟩ := hmoved.known hc
      cases status with
      | some status => exact (statusRecorded_moves reads hkept hc₁ hf₁ status fun _ _ => id).mono fun _ => .trans honward
      | none =>
        dsimp only
        rw [if_pos ⟨rfl, hnone⟩]
        exact returns_pure hmoved
    · have hseen : Returns (spawnSeen reads a f spawn) e .unit (e = ·) := by
        cases spawn with
        | none => exact returns_pure rfl
        | some spawn =>
          rw [spawnSeen, if_neg fun hnone => hlaunched ⟨rfl, hnone⟩]
          exact returns_pure rfl
      refine hseen.bind ?_
      rintro _ rfl
      cases status with
      | some status => exact statusRecorded_moves reads h hc hf status hX
      | none =>
        dsimp only
        rw [if_neg hlaunched]
        exact timedOut_moves reads h hc hf hp hX
  · rw [if_neg hcurrent]
    refine post_moves reads h hc hf (o := .timeout g) nofun hg hX fun _ _ hp => hstale hp ?_
    rintro rfl
    exact hcurrent ⟨(h.atPhase hc (p := .stopping)).mpr hp, (h.shows.generation hc).symm⟩

/-- The timers but one. -/
theorem Kept.unarmed (h : Kept past X b e) (a : String) :
    Kept past (fun x => X x ∨ x = a) b { e with timers := e.timers.erase a } :=
  { h with
    timers := fun {x g} hg => by
      rw [Dict.get?_erase] at hg
      split at hg
      · cases hg
      · exact h.timers hg
    watched := fun {x c f} hc hf hp => by
      by_cases hx : x = a
      · exact .inl (.inr hx)
      · refine (h.watched hc hf hp).imp .inl (Or.imp_right (Or.imp_left fun ht => ?_))
        rw [Dict.get?_erase, if_neg hx]
        exact ht }

/-- The armed timer of an attempt fires. -/
theorem fires_moves (h : Kept past X b e) (a : String) : Returns (fires reads a) e .unit (Moved past X b e) := by
  refine returns_get_bind ?_
  cases ht : e.timers.get? a with
  | none => exact returns_pure (.refl h)
  | some g =>
    refine Returns.bind (returns_modify rfl) ?_
    rintro _ rfl
    have hunarmed := h.unarmed a
    -- the tiers but for the timer are the ones before
    have hback : ∀ {e'}, Moved past X b { e with timers := e.timers.erase a } e' → Moved past X b e e' := fun ⟨b', hkept, ho⟩ =>
      ⟨b', hkept, ⟨ho.life, ho.cells, ho.absent, ho.replayed, ho.log⟩, ho.busy, ho.settled⟩
    rcases Option.eq_none_or_eq_some (e.attempts.get? a) with hf | ⟨f, hf⟩
    · -- a forgotten attempt's timer
      refine returns_get_bind ?_
      dsimp only
      rw [hf]
      refine returns_pure (hback (.refl { hunarmed with watched := fun {x c f'} hc hf' hp => ?_ }))
      refine (hunarmed.watched hc hf' hp).imp_left fun hor => hor.resolve_right ?_
      rintro rfl
      exact absurd (hf.symm.trans hf') nofun
    · obtain ⟨c, hc⟩ := h.cell hf
      refine (recordTimeout_moves reads hunarmed hc hf (h.timers ht).1 ?_ ?_).mono fun _ => hback
      · exact fun x hx hX => hX.resolve_right hx
      · intro hp hne
        rcases h.watched hc hf hp with hex | hwatched
        · exact .inl hex
        · refine .inr (hwatched.imp_right fun hor => .inr (hor.resolve_left fun ht' => ?_))
          exact hne (Option.some.inj (ht.symm.trans ht'))

/-- The invariant where a check of the drain is owed. -/
def MovedOwing (past : Past) (X : String → Prop) (b : Board) (e e' : Tiers) : Prop :=
  .settled ∈ e'.owed ∧ ∃ b', Kept past X b' e' ∧ Forth b e b' e'

/-- The hold is lifted: an attempt that is still stopping has its timeout read once more. -/
theorem groupGone_moves (h : Kept past X b e) (hc : b.cells a = some c) (hf : e.attempts.get? a = some f) :
    Returns (groupGone reads a) e .unit (MovedOwing past X b e) := by
  refine (returns_setKnown hf _).bind ?_
  rintro _ rfl
  refine Returns.bind (returns_modify rfl) ?_
  rintro _ rfl
  let g : Attempt → Attempt := fun f => { f with survived := false, failed := false }
  let e₁ : Tiers := { e.amend a g with owed := .settled :: (e.amend a g).owed }
  have hw : Wrote e a c f (g f) none e₁ := ((Wrote.refl hf).amend g rfl rfl).owe .settled nofun
  have hmachines : e₁.machines = e.machines := by
    obtain ⟨attempts, hrest⟩ := amend_rest e a g
    show (e.amend a g).machines = _
    rw [hrest]
  have hkept : Kept past (fun x => X x ∨ x = a) b e₁ := by
    have hb : b.write a c = b := Board.write_same hc
    rw [← hb]
    exact h.wrote hc hf hw (hb.symm ▸ hmachines ▸ h.shows) ((h.fits hc hf).congr rfl rfl rfl) (h.loud (f := f) hf)
      (.refl c) (fun _ _ => id) (fun _ _ => .inl) fun _ => .inl (.inr rfl)
  have hforth : Forth b e b e₁ := by
    have hforth := hw.forth hc (.refl c)
    rwa [Board.write_same hc] at hforth
  refine returns_get_bind ?_
  by_cases hstate : e₁.state a = "STOPPING"
  · rw [if_pos hstate]
    have hp : c.phase = .stopping := (hkept.atPhase hc (p := .stopping)).mp hstate
    have hgeneration := hkept.shows.generation hc
    have hpos : 0 < e₁.generation a := hgeneration ▸ ((hkept.fits hc hw.self).stopping hp).1
    have htimeout : Returns (recordTimeout reads a (e₁.generation a)) e₁ .unit (Moved past X b e₁) :=
      recordTimeout_moves reads hkept hc hw.self hpos (fun x hx hX => hX.resolve_right hx) fun _ hne => absurd hgeneration hne
    refine htimeout.mono ?_
    rintro e' ⟨b', hkept', honward⟩
    exact ⟨honward.settled List.mem_cons_self, b', hkept', hforth.trans honward.toForth⟩
  · rw [if_neg hstate]
    refine returns_pure ⟨List.mem_cons_self, b, { hkept with watched := fun {x d f'} hd hf' hp => ?_ }, hforth⟩
    refine (hkept.watched hd hf' hp).imp_left fun hor => hor.resolve_right ?_
    rintro rfl
    obtain rfl := Option.some.inj (hd.symm.trans hc)
    exact hstate ((hkept.atPhase hc (p := .stopping)).mpr hp)

/-- A restart posts the stop its predecessor was taking: nothing runs, and the attempt is excused. -/
theorem restoredStop_moves (h : Kept past X b e) (hc : b.cells a = some c) (hf : e.attempts.get? a = some f) (cause : String) :
    Returns (restoredStop reads a cause) e .unit (Moved past (fun x => X x ∨ x = a) b e) := by
  refine (returns_setKnown hf _).bind ?_
  rintro _ rfl
  obtain ⟨attempts, hrest⟩ := amend_rest e a fun f => { f with quiet := true }
  obtain ⟨d, intents, hans⟩ := Sight.Due.answered (o := .stop cause) trivial (h.fits hc hf)
  have hposted := post_posted reads (o := .stop cause) (fun d => (Wrote.refl (c := d) hf).amend (fun f => { f with quiet := true }) rfl rfl)
    (by rw [hrest]) (by rw [hrest]; exact h.shows) hc (h.fits hc hf) ⟨rfl, rfl, rfl⟩ nofun hans
  refine hposted.ensuring ?_
  rintro e₂ ⟨f₂, ending, hp⟩
  have hw := hp.wrote.amend (fun f => { f with quiet := false }) rfl rfl
  obtain ⟨attempts', hrest'⟩ := amend_rest e₂ a fun f => { f with quiet := false }
  refine ⟨_, h.wrote hc hf hw (by rw [hrest']; exact hp.shows) (hp.fits.congr rfl rfl rfl) rfl hp.steps hp.task (fun _ _ => .inl)
    fun _ => .inl (.inr rfl), hw.onward hc hp.steps.later hf ?_⟩
  exact hp.busy (h.fits hc hf) rfl rfl id

/-- What is left of a closing attempt's command. -/
theorem cleanup_moves (h : Kept past X b e) (hc : b.cells a = some c) (hf : e.attempts.get? a = some f)
    (hp : c.phase = .ended) : Returns (cleanup reads a) e .unit (Moved past X b e) := by
  obtain ⟨outcome, ho⟩ := Option.isSome_iff_exists.mp ((h.fits hc hf).ended hp)
  refine returns_get_bind ?_
  rw [h.shows.record hc, ho]
  refine (whatIsLeft_wrote reads (Wrote.refl hf) hp rfl rfl outcome).mono ?_
  rintro e₂ ⟨f₂, hw, hmachines, honward⟩
  have hb : b.write a c = b := Board.write_same hc
  refine ⟨b.write a c, h.wrote hc hf hw (hb.symm ▸ hmachines ▸ h.shows) (.of_ended hp (ho ▸ rfl)) (honward.quiet.trans (h.loud hf))
    (.refl c) (fun _ _ => id) (fun _ _ => id) (fun hstopping => absurd (hp.symm.trans hstopping) nofun), hw.onward hc (.refl c) hf ?_⟩
  rintro (hbusy | hbusy | hbusy | hbusy)
  · exact .inl hbusy
  · exact .inr (.inl (honward.planDone.trans hbusy))
  · exact .inr (.inr (.inl (honward.pending hbusy)))
  · exact .inr (.inr (.inr (honward.held hbusy)))

end Calls

/-! ## The ladder's task -/

section Tasks

variable {i : Nat} {t u : Task} {f₁ : Attempt} {e₁ : Tiers} {ending : Option AttemptOutcome}

theorem returns_setTask (i : Nat) (a : String) (t : Task) :
    Returns (setTask i a t) e .unit ({ e with tasks := e.tasks.set i (a, t) } = ·) := returns_modify rfl

/-- The attempt's one task is written. -/
theorem Ladders.set {tasks : List (String × Task)} (htask : tasks[i]? = some (a, u)) (hi : f.ladder = some i)
    (hladder : f₁.ladder = f.ladder) (hpending : if f₁.ladderPending = true then t.At c else t = .closed) :
    Ladders a c tasks f f₁ (tasks.set i (a, t)) := by
  refine .writes i t ?_ ?_ ?_ (fun _ => hi) (hladder.trans hi) hpending
  · rw [List.getElem?_set_self (List.getElem?_eq_some_iff.mp htask).1]
  · intro j hj
    exact List.getElem?_set_ne hj.symm
  · intro x v hv
    exact (Prod.mk.inj (Option.some.inj (hv.symm.trans htask))).1

theorem Wrote.setTask (hw : Wrote e a c f f₁ ending e₁) (htasks : e₁.tasks = e.tasks)
    (hl : Ladders a c e.tasks f f₁ (e.tasks.set i (a, t))) :
    Wrote e a c f f₁ ending { e₁ with tasks := e₁.tasks.set i (a, t) } :=
  ⟨hw.self, hw.others, htasks ▸ hl, hw.timer, hw.timers, hw.owed, hw.replayed, hw.log⟩

/-- A step of a task that leaves its attempt's cell, and leaves the attempt busy. -/
theorem Kept.tasked (h : Kept past X b e) (hc : b.cells a = some c) (hf : e.attempts.get? a = some f)
    (hw : Wrote e a c f f₁ none e₁) (hmachines : e₁.machines = e.machines) (hfits : c.Fits f₁) (hquiet : f₁.quiet = f.quiet)
    (hbusy : Busy c f → Busy c f₁) (hwatch : c.phase = .stopping → X a ∨ Watched e₁ a c f₁) : Moved past X b e e₁ := by
  have hb : b.write a c = b := Board.write_same hc
  exact ⟨b.write a c, h.wrote hc hf hw (hb.symm ▸ hmachines ▸ h.shows) hfits (hquiet.trans (h.loud hf)) (.refl c)
    (fun _ _ => id) (fun _ _ => id) hwatch, hw.onward hc (.refl c) hf hbusy⟩

/-- A ladder ended at its KILL. -/
theorem climbed_moves (h : Kept past X b e) (i : Nat) : Returns (climbed i) e .unit (Moved past X b e) := by
  refine returns_get_bind ?_
  split
  · next attempt group generation ht =>
    obtain hclosed | ⟨c, f, hc, hf, hi, hp, hat⟩ := h.tasks ht
    · cases hclosed
    have hother : ∀ {t}, (if f.ladderPending = true then Task.At c t else t = .closed) ↔ Task.At c t := fun {t} => by rw [if_pos hp]
    split
    · next hstate =>
      obtain ⟨hphase, hgen⟩ := hat.resolve_left fun hended => hstate ((h.atPhase hc (p := .ended)).mpr hended)
      subst hgen
      refine (returns_armTimer _).bind ?_
      rintro _ rfl
      refine (returns_setTask ..).mono ?_
      rintro _ rfl
      have hpos := ((h.fits hc hf).stopping hphase).1
      exact h.tasked hc hf (((Wrote.refl hf).arm hpos).setTask rfl (.set (t := .finished none) ht hi rfl (hother.mpr (.inr hphase)))) rfl
        (h.fits hc hf) rfl id fun _ => .inr (.inr (.inl Dict.get?_set_self))
    · next hstate =>
      have hended : c.phase = .ended := (h.atPhase hc (p := .ended)).mp (not_not.mp hstate)
      refine (returns_setTask ..).mono ?_
      rintro _ rfl
      exact h.tasked hc hf ((Wrote.refl hf).setTask rfl (.set (t := .surviving group) ht hi rfl (hother.mpr hended))) rfl
        (h.fits hc hf) rfl id fun hstopping => absurd (hended.symm.trans hstopping) nofun
  · exact returns_pure (.refl h)

theorem survives_held (hf : e.attempts.get? a = some f) : Returns (survives a) e .unit
    ((e.amend a fun f => { f with survived := true }).tell (.commandSurvived a) = ·) := by
  refine (returns_setKnown hf _).bind ?_
  rintro _ rfl
  exact returns_logged _

/-- A survivor verdict is taken. -/
theorem judged_moves (h : Kept past X b e) (i : Nat) (outlives : Bool) :
    Returns (judged i outlives) e .unit (Moved past X b e) := by
  refine returns_get_bind ?_
  split
  · next attempt group ht =>
    obtain hclosed | ⟨c, f, hc, hf, hi, hp, hat⟩ := h.tasks ht
    · cases hclosed
    have hended : c.phase = .ended := hat
    have hheld : Returns (if outlives = true then survives attempt else pure ()) e .unit fun e₁ => ∃ f₁,
        Wrote e attempt c f f₁ none e₁ ∧ e₁.machines = e.machines ∧ e₁.tasks = e.tasks ∧ f.Onward f₁ ∧ f₁.ladder = f.ladder := by
      cases outlives with
      | false => exact returns_pure ⟨f, .refl hf, rfl, rfl, .refl f, rfl⟩
      | true =>
        refine (survives_held hf).mono ?_
        rintro _ rfl
        obtain ⟨attempts, hrest⟩ := amend_rest e attempt fun f => { f with survived := true }
        exact ⟨_, ((Wrote.refl hf).amend _ rfl rfl).tell rfl, by rw [hrest]; rfl, by rw [hrest]; rfl,
          ⟨rfl, rfl, rfl, fun _ => rfl, id⟩, rfl⟩
    refine Returns.bind hheld ?_
    rintro e₁ ⟨f₁, hw, hmachines, htasks, honward, hladder⟩
    refine (returns_setTask ..).mono ?_
    rintro _ rfl
    have hat' : if f₁.ladderPending = true then Task.At c (.finished none) else Task.finished none = .closed := by
      rw [if_pos (honward.pending hp)]
      exact .inl hended
    exact h.tasked hc hf (hw.setTask htasks (.set ht hi hladder hat')) hmachines (.of_ended hended ((h.fits hc hf).ended hended))
      honward.quiet (fun _ => .inr (.inr (.inl (honward.pending hp)))) fun hstopping => absurd (hended.symm.trans hstopping) nofun
  · exact returns_pure (.refl h)

/-- A ladder raises. -/
theorem ladderRaises_moves (h : Kept past X b e) (i : Nat) (error : String) :
    Returns (ladderRaises i error) e .unit (Moved past X b e) := by
  have hstep : ∀ {attempt t}, e.tasks[i]? = some (attempt, t) → t ≠ .closed →
      Returns (setTask i attempt (.finished (some error))) e .unit (Moved past X b e) := by
    intro attempt t ht hne
    obtain ⟨c, f, hc, hf, hi, hp, hat⟩ := (h.tasks ht).resolve_left hne
    refine (returns_setTask ..).mono ?_
    rintro _ rfl
    have hat' : if f.ladderPending = true then Task.At c (.finished (some error)) else Task.finished (some error) = .closed := by
      rw [if_pos hp]
      exact hat.stopped
    have hi' : i < e.tasks.length := (List.getElem?_eq_some_iff.mp ht).1
    exact h.tasked hc hf ((Wrote.refl hf).setTask rfl (.set ht hi rfl hat')) rfl (h.fits hc hf) rfl id fun _ =>
      .inr (.inr (.inr ⟨i, _, hi, List.getElem?_set_self hi', .inr ⟨error, rfl⟩⟩))
  refine returns_get_bind ?_
  split
  · next ht => exact hstep ht nofun
  · next ht => exact hstep ht nofun
  · exact returns_pure (.refl h)

/-- A ladder's callback: its failure holds the attempt, and the attempt may be settled now. -/
theorem ladderDone_moves (h : Kept past X b e) (i : Nat) : Returns (ladderDone i) e .unit fun e' =>
    e' = e ∨ MovedOwing past X b e e' := by
  refine returns_get_bind ?_
  split
  · next attempt error ht =>
    obtain hclosed | ⟨c, f, hc, hf, hi, hp, hat⟩ := h.tasks ht
    · cases hclosed
    have hfailed : Returns (ladderFailed attempt error) e .unit fun e₁ => ∃ f₁,
        Wrote e attempt c f f₁ none e₁ ∧ e₁.machines = e.machines ∧ e₁.tasks = e.tasks ∧ f.Onward f₁ ∧ f₁.ladder = f.ladder ∧
          (error.isSome → f₁.held) ∧ ∀ x, e₁.timers.get? x = e.timers.get? x := by
      cases error with
      | none => exact returns_pure ⟨f, .refl hf, rfl, rfl, .refl f, rfl, nofun, fun _ => rfl⟩
      | some error =>
        refine (returns_setKnown hf _).bind ?_
        rintro _ rfl
        refine (returns_logged _).mono ?_
        rintro _ rfl
        obtain ⟨attempts, hrest⟩ := amend_rest e attempt fun f => { f with failed := true }
        refine ⟨_, ((Wrote.refl hf).amend _ rfl rfl).tell rfl, by rw [hrest]; rfl, by rw [hrest]; rfl,
          ⟨rfl, rfl, rfl, fun _ => by simp [Attempt.held], id⟩, rfl, fun _ => by simp [Attempt.held], fun x => by rw [hrest]; rfl⟩
    refine Returns.bind hfailed ?_
    rintro e₁ ⟨f₁, hw, hmachines, htasks, honward, hladder, hheld, htimers⟩
    refine Returns.bind (returns_setKnown hw.self _) ?_
    rintro _ rfl
    refine Returns.bind (returns_setTask ..) ?_
    rintro _ rfl
    refine returns_modify (.inr ⟨List.mem_cons_self, ?_⟩)
    let g : Attempt → Attempt := fun f => { f with ladderPending := false }
    obtain ⟨attempts, hrest⟩ := amend_rest e₁ attempt g
    have hself : (e₁.amend attempt g).attempts.get? attempt = some (g f₁) := amend_self hw.self
    have hothers : ∀ {x}, x ≠ attempt → (e₁.amend attempt g).attempts.get? x = e.attempts.get? x :=
      fun hx => (amend_others hx).trans (hw.others hx)
    have hl : Ladders attempt c e.tasks f (g f₁) (e.tasks.set i (attempt, .closed)) := .set ht hi hladder rfl
    rw [← htasks] at hl
    change e₁.amend attempt g = _ at hrest
    show ∃ b', Kept past X b' { e₁.amend attempt g with
      tasks := (e₁.amend attempt g).tasks.set i (attempt, .closed), owed := .settled :: (e₁.amend attempt g).owed } ∧ _
    rw [hrest] at hself hothers ⊢
    have hclosed : Wrote e attempt c f (g f₁) none { e₁ with attempts, tasks := e₁.tasks.set i (attempt, .closed) } :=
      ⟨hself, hothers, htasks ▸ hl, hw.timer, hw.timers, hw.owed, hw.replayed, hw.log⟩
    have hwrote := hclosed.owe .settled nofun
    have hb : b.write attempt c = b := Board.write_same hc
    refine ⟨b.write attempt c, h.wrote hc hf hwrote (hb.symm ▸ hmachines ▸ h.shows) ?_ (honward.quiet.trans (h.loud hf)) (.refl c)
      (fun _ _ => id) (fun _ _ => id) ?_, hwrote.forth hc (.refl c)⟩
    · have hfits := h.fits hc hf
      exact ⟨fun hp => ⟨honward.spawn.trans (hfits.spawning hp).1, (hfits.spawning hp).2.1, (hfits.spawning hp).2.2.1, rfl⟩,
        fun hp => ⟨honward.spawn ▸ (hfits.running hp).1, (hfits.running hp).2.1, (hfits.running hp).2.2.1, rfl⟩,
        fun hp => ⟨(hfits.stopping hp).1, (hfits.stopping hp).2.1, (hfits.stopping hp).2.2.1, fun _ => rfl⟩, hfits.ended,
        fun hdone => hfits.planDone (honward.planDone ▸ hdone)⟩
    · intro hstopping
      refine (h.watched hc hf hstopping).imp_right ?_
      rintro (hheld' | htimer | ⟨j, t, hj, ht', hcase⟩)
      · exact .inl (honward.held hheld')
      · exact .inr (.inl ((htimers attempt).trans htimer))
      · -- the task that is over is the attempt's one
        obtain rfl := Option.some.inj (hi.symm.trans hj)
        obtain rfl : Task.finished error = t := (Prod.mk.inj (Option.some.inj (ht.symm.trans ht'))).2
        rcases hcase with ⟨group, hgroup⟩ | ⟨text, htext⟩
        · cases hgroup
        · exact .inl (hheld (Task.finished.inj htext ▸ rfl))
  · exact returns_pure (.inl rfl)

end Tasks

/-! ## Attempts come and go -/

/-- An attempt comes under a run id that was never used. -/
theorem Kept.adopt (h : Kept past X b e) (hnew : ¬ past.adopted a) {m : Machines} (hshows : (b.write a c).Shows m)
    (hfits : c.Fits f) (hquiet : f.quiet = false) (hpending : f.ladderPending = false) (hrun : c.phase ≠ .stopping)
    {past' : Past} (hadopted : ∀ x, past'.adopted x ↔ past.adopted x ∨ x = a)
    (hclosing : ∀ x, past'.closing x ↔ past.closing x ∨ x = a ∧ c.record.outcome.isSome)
    (hpast : ∀ x, past.closing x → past.adopted x) :
    Kept past' X (b.write a c) { e with machines := m, attempts := e.attempts.set a f } := by
  have hnone : e.attempts.get? a = none := by
    cases hf : e.attempts.get? a with
    | none => rfl
    | some f => exact absurd (h.adopted hf) hnew
  have hcell : b.cells a = none := by
    rw [← Option.not_isSome_iff_eq_none, h.known a, hnone]
    simp
  have hself : ((e.attempts.set a f).get? a) = some f := Dict.get?_set_self
  have hothers : ∀ {x}, x ≠ a → (e.attempts.set a f).get? x = e.attempts.get? x := fun hx => Dict.get?_set_ne hx
  have hsilent : outcomesOf a e.log = [] := h.untold (.inl hnew)
  have hold : ∀ {x}, x ≠ a → (past'.closing x ↔ past.closing x) := fun {x} hx => by
    rw [hclosing]
    simp [hx]
  constructor
  case shows => exact hshows
  case known =>
    intro x
    by_cases hx : x = a
    · subst hx
      simp [hself]
    · rw [Board.write_ne hx, hothers hx]
      exact h.known x
  case fits =>
    intro x d g hd hg
    by_cases hx : x = a
    · subst hx
      obtain rfl := Option.some.inj (Board.write_self.symm.trans hd)
      obtain rfl := Option.some.inj (hself.symm.trans hg)
      exact hfits
    · exact h.fits ((Board.write_ne hx).symm.trans hd) ((hothers hx).symm.trans hg)
  case loud =>
    intro x g hg
    by_cases hx : x = a
    · subst hx
      obtain rfl := Option.some.inj (hself.symm.trans hg)
      exact hquiet
    · exact h.loud ((hothers hx).symm.trans hg)
  case adopted =>
    intro x g hg
    by_cases hx : x = a
    · exact (hadopted x).mpr (.inr hx)
    · exact (hadopted x).mpr (.inl (h.adopted ((hothers hx).symm.trans hg)))
  case tasks =>
    intro i x t ht
    refine (h.tasks ht).imp_right ?_
    rintro ⟨d, g, hd, hg, hrest⟩
    have hx : x ≠ a := by
      rintro rfl
      cases hcell.symm.trans hd
    exact ⟨d, g, (Board.write_ne hx).trans hd, (hothers hx).trans hg, hrest⟩
  case pending =>
    intro x g hg hp
    by_cases hx : x = a
    · subst hx
      obtain rfl := Option.some.inj (hself.symm.trans hg)
      exact absurd (hpending.symm.trans hp) Bool.false_ne_true
    · exact h.pending ((hothers hx).symm.trans hg) hp
  case timers =>
    intro x g hg
    exact ⟨(h.timers hg).1, (hadopted x).mpr (.inl (h.timers hg).2)⟩
  case owed =>
    intro x hx
    have hxa : x ≠ a := fun hxa => hnew (hxa ▸ (h.owed hx).1)
    refine ⟨(hadopted x).mpr (.inl (h.owed hx).1), fun d hd => (h.owed hx).2 d ?_⟩
    exact (Board.write_ne hxa).symm.trans hd
  case watched =>
    intro x d g hd hg hp
    by_cases hx : x = a
    · subst hx
      obtain rfl := Option.some.inj (Board.write_self.symm.trans hd)
      exact absurd hp hrun
    · exact h.watched ((Board.write_ne hx).symm.trans hd) ((hothers hx).symm.trans hg) hp
  case told =>
    intro x d hd hclose
    by_cases hx : x = a
    · subst hx
      obtain rfl := Option.some.inj (Board.write_self.symm.trans hd)
      have hnone : c.record.outcome = none :=
        Option.not_isSome_iff_eq_none.mp fun hsome => hclose ((hclosing x).mpr (.inr ⟨rfl, hsome⟩))
      rw [hsilent, hnone]
      rfl
    · exact h.told ((Board.write_ne hx).symm.trans hd) fun hclose' => hclose ((hold hx).mpr hclose')
  case closing =>
    intro x d hd hclose
    by_cases hx : x = a
    · subst hx
      obtain rfl := Option.some.inj (Board.write_self.symm.trans hd)
      exact ((hclosing x).mp hclose).elim (fun hclose' => absurd (hpast x hclose') hnew) fun hsome => hfits.outcome.mp hsome.2
    · exact h.closing ((Board.write_ne hx).symm.trans hd) ((hold hx).mp hclose)
  case untold =>
    intro x hor
    by_cases hx : x = a
    · exact hx ▸ hsilent
    · exact h.untold (hor.imp (fun hn hx' => hn ((hadopted x).mpr (.inl hx'))) (hold hx).mp)
  case forgotten =>
    intro x hx hclose hgone
    have hxa : x ≠ a := by
      rintro rfl
      simp at hgone
    exact h.forgotten (((hadopted x).mp hx).resolve_right hxa) (fun hclose' => hclose ((hold hxa).mpr hclose'))
      ((Board.write_ne hxa).symm.trans hgone)

/-- A dispatched attempt comes in its first phase. -/
theorem dispatch_adopts (h : Kept past X b e) (hnew : ¬ past.adopted a) (hpast : ∀ x, past.closing x → past.adopted x)
    {past' : Past} (hadopted : ∀ x, past'.adopted x ↔ past.adopted x ∨ x = a) (hclosing : ∀ x, past'.closing x ↔ past.closing x) :
    Returns (dispatch a) e .unit fun e' => Kept past' X (b.write a {}) e' ∧
      ∃ m, e' = { e with machines := m, attempts := e.attempts.set a {} } := by
  have hcell : b.cells a = none := by
    rw [← Option.not_isSome_iff_eq_none, h.known a]
    intro hsome
    obtain ⟨f, hf⟩ := Option.isSome_iff_exists.mp hsome
    exact hnew (h.adopted hf)
  obtain ⟨m₁, m₂, out, hstart, hdrain, hshows⟩ := h.shows.starts hcell
  refine returns_get_bind ?_
  rw [hstart]
  refine Returns.bind (returns_modify rfl) ?_
  rintro _ rfl
  rw [hdrain]
  have hfits : ({} : Cell).Fits {} :=
    ⟨fun _ => ⟨rfl, rfl, rfl, rfl⟩, by simp, by simp, by simp, by simp⟩
  refine returns_modify ⟨?_, m₂, rfl⟩
  exact h.adopt hnew hshows hfits rfl rfl (by decide) hadopted (fun x => by simp [hclosing]) hpast

/-- A closing attempt comes ended. -/
theorem restoreEnded_adopts (h : Kept past X b e) (hnew : ¬ past.adopted a) (hpast : ∀ x, past.closing x → past.adopted x)
    {past' : Past} (hadopted : ∀ x, past'.adopted x ↔ past.adopted x ∨ x = a)
    (hclosing : ∀ x, past'.closing x ↔ past.closing x ∨ x = a) (outcome : AttemptOutcome) (plan : Bool) :
    Returns (restoreEnded a outcome plan) e .unit fun e' => ∃ c, c.phase = .ended ∧ Kept past' X (b.write a c) e' ∧
      ∃ m, e' = { e with machines := m, attempts := e.attempts.set a { planDone := plan } } := by
  have hcell : b.cells a = none := by
    rw [← Option.not_isSome_iff_eq_none, h.known a]
    intro hsome
    obtain ⟨f, hf⟩ := Option.isSome_iff_exists.mp hsome
    exact hnew (h.adopted hf)
  obtain ⟨m, hrestore, hshows⟩ := h.shows.restores hcell { cause := outcome.cause, outcome := some outcome }
  refine returns_get_bind ?_
  dsimp only
  rw [hrestore]
  refine returns_modify ⟨{ phase := .ended, record := { cause := outcome.cause, outcome := some outcome } }, rfl, ?_, m, rfl⟩
  exact h.adopt hnew hshows (.of_ended rfl rfl) rfl rfl (by simp) hadopted (fun x => by simp [hclosing]) hpast

/-- An attempt whose plan, ladder or hold is not done is not forgotten. -/
theorem forget_refuses (hf : e.attempts.get? a = some f)
    (hopen : f.planDone = false ∨ f.ladderPending = true ∨ f.held = true) : Refuses (forget a) e := by
  have hif : (!f.planDone || f.ladderPending || f.held) = true := by
    rcases hopen with h | h | h <;> simp [h]
  have hbody : ∀ {α : Type} (k : Attempt → TierM α), (known a >>= k).result e = (k f).result e ∧
      (known a >>= k).after e = (k f).after e := by
    intro α k
    obtain ⟨hresult, hafter⟩ := returns_known hf
    constructor
    · rw [result_bind, hresult, ← hafter]
    · rw [after_bind, hresult, ← hafter]
  refine ⟨.unfinished a, ?_, ?_⟩
  · refine (hbody _).1.trans ?_
    rw [if_pos hif]
    rfl
  · refine (hbody _).2.trans ?_
    rw [if_pos hif]
    rfl

/-- **A settled attempt is forgotten.** -/
theorem forget_drops (h : Kept past X b e) (hc : b.cells a = some c) (hf : e.attempts.get? a = some f)
    (hplan : f.planDone = true) (hpending : f.ladderPending = false) (hheld : f.held = false) :
    Returns (forget a) e .unit fun e' => Kept past X (b.drop a) e' ∧
      ∃ m, e' = { e with machines := m, attempts := e.attempts.erase a } := by
  have hended : c.phase = .ended := (h.fits hc hf).planDone hplan
  obtain ⟨m, hforget, hshows⟩ := h.shows.forgets hc hended
  refine (returns_known hf).bind ?_
  rintro _ rfl
  rw [if_neg (by simp [hplan, hpending, hheld])]
  refine returns_get_bind ?_
  rw [hforget]
  refine returns_modify ⟨?_, m, rfl⟩
  have hdrop : ∀ {x}, x ≠ a → (b.drop a).cells x = b.cells x := fun hx => Function.update_of_ne hx ..
  have hgone : (b.drop a).cells a = none := Function.update_self ..
  have herase : ∀ {x}, x ≠ a → (e.attempts.erase a).get? x = e.attempts.get? x := fun hx => by rw [Dict.get?_erase, if_neg hx]
  have hne : ∀ {x d}, (b.drop a).cells x = some d → x ≠ a := by
    rintro x d hd rfl
    exact absurd (hgone.symm.trans hd) nofun
  have hnf : ∀ {x g}, (e.attempts.erase a).get? x = some g → x ≠ a := by
    rintro x g hg rfl
    simp [Dict.get?_erase] at hg
  have hcells : ∀ {x d}, (b.drop a).cells x = some d → b.cells x = some d := fun hd => (hdrop (hne hd)).symm.trans hd
  have hfacts : ∀ {x g}, (e.attempts.erase a).get? x = some g → e.attempts.get? x = some g := fun hg =>
    (herase (hnf hg)).symm.trans hg
  constructor
  case shows => exact hshows
  case known =>
    intro x
    by_cases hx : x = a
    · subst hx
      simp [hgone, Dict.get?_erase]
    · rw [hdrop hx, herase hx]
      exact h.known x
  case fits => exact fun hd hg => h.fits (hcells hd) (hfacts hg)
  case loud => exact fun hg => h.loud (hfacts hg)
  case adopted => exact fun hg => h.adopted (hfacts hg)
  case tasks =>
    intro i x t ht
    refine (h.tasks ht).imp_right ?_
    rintro ⟨d, g, hd, hg, hi, hp, hat⟩
    have hx : x ≠ a := by
      rintro rfl
      obtain rfl := Option.some.inj (hg.symm.trans hf)
      exact absurd (hpending.symm.trans hp) Bool.false_ne_true
    exact ⟨d, g, (hdrop hx).trans hd, (herase hx).trans hg, hi, hp, hat⟩
  case pending => exact fun hg hp => h.pending (hfacts hg) hp
  case timers => exact h.timers
  case owed => exact fun hx => ⟨(h.owed hx).1, fun d hd => (h.owed hx).2 d (hcells hd)⟩
  case watched => exact fun hd hg hp => h.watched (hcells hd) (hfacts hg) hp
  case told => exact fun hd hclosing => h.told (hcells hd) hclosing
  case closing => exact fun hd hclosing => h.closing (hcells hd) hclosing
  case untold => exact h.untold
  case forgotten =>
    intro x hadopted hclosing hnone
    by_cases hx : x = a
    · subst hx
      obtain ⟨outcome, ho⟩ := Option.isSome_iff_exists.mp ((h.fits hc hf).ended hended)
      exact ⟨outcome, by rw [h.told hc hclosing, ho]; rfl⟩
    · exact h.forgotten hadopted hclosing ((hdrop hx).symm.trans hnone)

end Dsl41.Attempts
