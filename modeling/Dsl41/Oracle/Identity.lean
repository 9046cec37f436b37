import Dsl41.Oracle.Starts

/-!
# Names across updates

A swap retires the jobs it removes and admits the jobs it adds, all at once or not at all
(`replaceCatalog_cases`). So the record of a name goes on through any number of removals and
additions.

* `Swapped` — what a swap that returns leaves
* `Past` — a revision that no row of a job reaches again, kept by every call
-/

namespace Dsl41.Oracle

open Dsl41.Infra Dsl41.Infra.Effect Dsl41.Store
open RuntimeState (restoreInstances)

variable {s s' : OracleStore} {e e' : Machine} {settings : Settings} {job : String}

/-! ## The names a swap moves -/

/-- The first catalog defines the job, and the second not, or with another type. -/
def Removed (live candidate : CatalogIR) (job : String) : Prop :=
  ∃ ir, live.jobs.get? job = some ir ∧ ∀ ir', candidate.jobs.get? job = some ir' → ir'.jobType ≠ ir.jobType

/-- Both catalogs define the job, with one type. -/
def Kept (live candidate : CatalogIR) (job : String) : Prop :=
  ∃ ir ir', live.jobs.get? job = some ir ∧ candidate.jobs.get? job = some ir' ∧ ir'.jobType = ir.jobType

theorem mem_retypedJobs {live candidate : CatalogIR} : job ∈ retypedJobs live candidate ↔
    ∃ ir ir', live.jobs.get? job = some ir ∧ candidate.jobs.get? job = some ir' ∧ ir'.jobType ≠ ir.jobType := by
  simp only [retypedJobs, List.mem_map, List.mem_filter, Prod.exists, Option.any_eq_true, decide_eq_true_eq]
  constructor
  · rintro ⟨name, ir, ⟨hmem, ir', hir', hne⟩, rfl⟩
    exact ⟨ir, ir', Dict.get?_eq_some.mpr hmem, hir', hne⟩
  · rintro ⟨ir, ir', hir, hir', hne⟩
    exact ⟨job, ir, ⟨Dict.get?_eq_some.mp hir, ir', hir', hne⟩, rfl⟩

theorem mem_lost {live candidate : CatalogIR} : job ∈ lost live candidate ↔ Removed live candidate job := by
  rw [lost, List.mem_insertionSort, List.mem_append, mem_retypedJobs, List.mem_filter, Dict.mem_keys,
    Option.isNone_iff_eq_none]
  constructor
  · rintro (⟨⟨ir, hir⟩, hnone⟩ | ⟨ir, ir', hir, hir', hne⟩)
    · exact ⟨ir, hir, fun ir' hir' => by rw [hnone] at hir'; cases hir'⟩
    · exact ⟨ir, hir, fun ir'' hir'' => by rw [hir'] at hir''; cases hir''; exact hne⟩
  · rintro ⟨ir, hir, hcandidate⟩
    cases hc : candidate.jobs.get? job with
    | none => exact Or.inl ⟨⟨ir, hir⟩, rfl⟩
    | some ir' => exact Or.inr ⟨ir, ir', hir, rfl, hcandidate ir' hc⟩

theorem lost_nodup (live candidate : CatalogIR) : (lost live candidate).Nodup := by
  rw [lost, (List.perm_insertionSort _ _).nodup_iff, List.nodup_append]
  refine ⟨live.jobs.keys_nodup.filter _, ?_, ?_⟩
  · exact (List.Sublist.map Prod.fst List.filter_sublist).nodup live.jobs.nodup
  · intro x hx y hy hxy
    obtain ⟨-, ir', -, hir', -⟩ := mem_retypedJobs.mp hy
    have hnone := (List.mem_filter.mp hx).2
    rw [hxy, hir'] at hnone
    cases hnone

/-- A kept job is neither removed nor added. -/
theorem Kept.stays {live candidate : CatalogIR} (h : Kept live candidate job) :
    job ∉ lost live candidate ∧ job ∉ lost candidate live := by
  obtain ⟨ir, ir', hir, hir', ht⟩ := h
  rw [mem_lost, mem_lost]
  constructor
  · rintro ⟨r, hr, hne⟩
    rw [hir] at hr
    cases hr
    exact hne ir' hir' ht
  · rintro ⟨r, hr, hne⟩
    rw [hir'] at hr
    cases hr
    exact hne ir hir ht.symm

/-! ## The lists of a swap -/

/-- **The removals of a swap return, of rows that are there.** -/
theorem retireJobs_spec (keepsHeld : String → Bool) {jobs : List String} (hs : ¬ s.phase.isOpen) (hapart : Apart s)
    (hnd : jobs.Nodup) (hrows : ∀ x ∈ jobs, ∃ row, s.jobs.get? x = some row) :
    (retireJobs keepsHeld jobs).result s = .ok () ∧ Retired s ((retireJobs keepsHeld jobs).after s) jobs := by
  induction jobs generalizing s with
  | nil => exact ⟨rfl, .nil s⟩
  | cons job jobs ih =>
    obtain ⟨hj, hnd⟩ := List.nodup_cons.mp hnd
    obtain ⟨row, hrow⟩ := hrows job List.mem_cons_self
    have hfree := (hapart job).resolve_left (by simp [hrow])
    obtain ⟨⟨tombstone, hok⟩, hone⟩ := retireJob_spec (some keepsHeld) hs hrow hfree
    have hrest := ih (hone.phase ▸ hs) (hone.apart hapart) hnd fun x hx => by
      obtain ⟨row', hrow'⟩ := hrows x (List.mem_cons_of_mem _ hx)
      have hne : x ∉ [job] := by
        rintro hx'
        exact hj (List.mem_singleton.mp hx' ▸ hx)
      exact ⟨row', (hone.kept x hne).1.trans hrow'⟩
    rw [retireJobs, result_bind, after_bind, result_discard hok, after_discard]
    exact ⟨hrest.1, hone.cons hj hrest.2⟩

/-- **The additions of a swap return, of names with no row.** -/
theorem admitJobs_spec (catalog : CatalogIR) {jobs : List String} (hs : ¬ s.phase.isOpen)
    (hnd : jobs.Nodup) (hrows : ∀ x ∈ jobs, s.jobs.get? x = none) :
    (admitJobs catalog jobs).result s = .ok () ∧ Joined s ((admitJobs catalog jobs).after s) jobs := by
  induction jobs generalizing s with
  | nil => exact ⟨rfl, .nil s⟩
  | cons job jobs ih =>
    obtain ⟨hj, hnd⟩ := List.nodup_cons.mp hnd
    rw [admitJobs, result_bind, after_bind, result_get, after_get]
    dsimp only
    obtain ⟨hok, hone⟩ := admitJob_spec
      ((catalog.jobs.get? job).any (seedsFlag · .onIce) || ((s.tombstones.get? job).getD {}).onIce)
      ((catalog.jobs.get? job).any (seedsFlag · .onHold) || ((s.tombstones.get? job).getD {}).onHold)
      ((catalog.jobs.get? job).any (seedsFlag · .onNoexec) || ((s.tombstones.get? job).getD {}).onNoexec)
      hs (hrows job List.mem_cons_self)
    have hrest := ih (hone.phase ▸ hs) hnd fun x hx => by
      have hne : x ∉ [job] := by
        rintro hx'
        exact hj (List.mem_singleton.mp hx' ▸ hx)
      exact (hone.kept x hne).1.trans (hrows x (List.mem_cons_of_mem _ hx))
    rw [result_bind, after_bind, hok]
    exact ⟨hrest.1, hone.cons hj hrest.2⟩

/-! ## A swap -/

/-- What a swap that returns leaves. -/
structure Swapped (settings : Settings) (e e' : Machine) : Prop where
  store : ∃ s₁ s₂ instances, Retired e.world.store s₁ (lost e.world.catalog settings.catalog) ∧
    Joined s₁ s₂ (lost settings.catalog e.world.catalog) ∧ e'.world.store = { s₂ with instances }
  restored : Restored storeInstance e'.world.store
  executor : e'.executor = rebuilt e'.world
  taken : e'.taken = e.taken

/-- What the swap's checks let through. -/
theorem swapRefused_false {rows : Dict String (JobRuntime Instant)} {live candidate : CatalogIR}
    (h : swapRefused rows (lost live candidate) (lost candidate live) (retypedJobs live candidate) = false) :
    (∀ x ∈ lost live candidate, ∃ row, rows.get? x = some row) ∧
      ∀ x ∈ lost candidate live, x ∈ lost live candidate ∨ rows.get? x = none := by
  rw [swapRefused, Bool.or_eq_false_iff, List.any_eq_false, List.any_eq_false] at h
  refine ⟨fun x hx => ?_, fun x hx => ?_⟩
  · have hrow := h.1 x hx
    cases hget : rows.get? x with
    | none => simp [hget] at hrow
    | some row => exact ⟨row, rfl⟩
  · by_cases hretyped : x ∈ retypedJobs live candidate
    · refine Or.inl ?_
      rw [lost, List.mem_insertionSort]
      exact List.mem_append_right _ hretyped
    · have hrow := h.2 x hx
      exact Or.inr (by simpa [hretyped] using hrow)

/-- The swap past its checks. -/
def swapWrites (settings : Settings) (removed added : List String) (keepsHeld : String → Bool) :
    MachineM (List String × List String) := do
  onWorld (onStore (retireJobs keepsHeld removed))
  changeWorld fun w => w.swapped settings
  onWorld (onStore (admitJobs settings.catalog added))
  onWorld (onStore restoreInstances)
  modify fun e => Machine.setExecutor e (rebuilt { Machine.world e with wakeOwed := true })
  return (removed, added)

/-- **Past its checks a swap returns.** -/
theorem swapWrites_spec (settings : Settings) {removed added : List String} (hopen : ¬ e.world.store.phase.isOpen)
    (hapart : Apart e.world.store) (hgives : e.world.store.jobInstance = some storeInstance)
    (hnd : removed.Nodup) (hnd' : added.Nodup) (hrows : ∀ x ∈ removed, ∃ row, e.world.store.jobs.get? x = some row)
    (hfresh : ∀ x ∈ added, x ∈ removed ∨ e.world.store.jobs.get? x = none) :
    Returns (swapWrites settings removed added e.world.pool.keepsHeld) e (removed, added) fun e' =>
      (∃ s₁ s₂ instances, Retired e.world.store s₁ removed ∧ Joined s₁ s₂ added ∧
        e'.world.store = { s₂ with instances }) ∧ Restored storeInstance e'.world.store ∧
        e'.executor = rebuilt e'.world ∧ e'.taken = e.taken := by
  obtain ⟨hretire, hretired⟩ := retireJobs_spec e.world.pool.keepsHeld hopen hapart hnd hrows
  have hnone : ∀ x ∈ added, ((retireJobs e.world.pool.keepsHeld removed).after e.world.store).jobs.get? x = none := by
    intro x hx
    by_cases hr : x ∈ removed
    · exact (hretired.buried x hr).1
    · rw [(hretired.kept x hr).1]
      exact (hfresh x hx).resolve_left hr
  obtain ⟨hadd, hjoined⟩ := admitJobs_spec settings.catalog (hretired.phase ▸ hopen) hnd' hnone
  obtain ⟨hrestore, instances, hinstances, hrestored⟩ := restoreInstances_spec (f := storeInstance) (fun _ _ => ⟨_, rfl⟩)
    ((hjoined.gives.trans hretired.gives).trans hgives)
  refine (returns_onStore hretire).bind fun e₁ he₁ => ?_
  subst he₁
  refine (returns_modify rfl : Returns _ _ _ fun e₂ => e₂ = _).bind fun e₂ he₂ => ?_
  subst he₂
  refine (returns_onStore hadd).bind fun e₃ he₃ => ?_
  subst he₃
  refine (returns_onStore hrestore).bind fun e₄ he₄ => ?_
  subst he₄
  refine (returns_modify rfl : Returns _ _ _ fun e₅ => e₅ = _).bind fun e₅ he₅ => ?_
  subst he₅
  exact returns_pure ⟨⟨_, _, instances, hretired, hjoined, hinstances⟩, hinstances.symm ▸ hrestored, rfl, rfl⟩

/-- **A swap happens at once or not at all.** -/
theorem replaceCatalog_cases (settings : Settings) (hapart : Apart e.world.store) (hgives : e.world.store.jobInstance = some storeInstance) :
    (∃ err, (replaceCatalog settings).result e = .error err) ∧ (replaceCatalog settings).after e = e ∨
      (replaceCatalog settings).result e =
          .ok (lost e.world.catalog settings.catalog, lost settings.catalog e.world.catalog) ∧
        Swapped settings e ((replaceCatalog settings).after e) := by
  by_cases hopen : e.world.store.phase.isOpen
  · left
    have hraise : (RuntimeState.requireBetweenInputs "replace_catalog" "").result e.world.store =
        .error (.insideInput "replace_catalog" "") := by
      rw [RuntimeState.requireBetweenInputs, result_bind, result_get, after_get]
      simp [hopen]
    have hstay : (RuntimeState.requireBetweenInputs "replace_catalog" "").after e.world.store = e.world.store := by
      rw [RuntimeState.requireBetweenInputs, after_bind, result_get, after_get]
      simp [hopen]
    obtain ⟨hok, hafter⟩ := raises_onStore hraise
    rw [replaceCatalog, result_bind, after_bind, hok, hafter, hstay]
    exact ⟨⟨_, rfl⟩, rfl⟩
  · have hguard : (RuntimeState.requireBetweenInputs "replace_catalog" "").result e.world.store = .ok () ∧
        (RuntimeState.requireBetweenInputs "replace_catalog" "").after e.world.store = e.world.store := by
      constructor
      · rw [RuntimeState.requireBetweenInputs, result_bind, result_get, after_get]
        simp [hopen]
      · rw [RuntimeState.requireBetweenInputs, after_bind, result_get, after_get]
        simp [hopen]
    have hchecked : Returns (onWorld (onStore (RuntimeState.requireBetweenInputs "replace_catalog" ""))) e () (· = e) := by
      obtain ⟨hok, hafter⟩ := returns_onStore hguard.1
      refine ⟨hok, hafter.trans ?_⟩
      rw [hguard.2]
      rfl
    rw [replaceCatalog, result_bind, after_bind, hchecked.1, hchecked.2]
    dsimp only
    rw [result_bind, after_bind, result_get, after_get]
    dsimp only
    cases href : swapRefused e.world.store.jobs (lost e.world.catalog settings.catalog)
        (lost settings.catalog e.world.catalog) (retypedJobs e.world.catalog settings.catalog) with
    | true => exact Or.inl ⟨⟨_, rfl⟩, rfl⟩
    | false =>
      obtain ⟨hrows, hfresh⟩ := swapRefused_false href
      obtain ⟨hok, hstore, hrestored, hexecutor, htaken⟩ := swapWrites_spec settings hopen hapart hgives
        (lost_nodup e.world.catalog settings.catalog) (lost_nodup settings.catalog e.world.catalog) hrows hfresh
      exact Or.inr ⟨hok, hstore, hrestored, hexecutor, htaken⟩

/-- A kept job's row, tombstone and timers are as they were. -/
theorem Swapped.kept (h : Swapped settings e e') (hk : Kept e.world.catalog settings.catalog job) :
    e'.world.store.jobs.get? job = e.world.store.jobs.get? job ∧
      e'.world.store.tombstones.get? job = e.world.store.tombstones.get? job ∧
      e'.world.store.timers.entries.filter (·.event.job = some job) =
        e.world.store.timers.entries.filter (·.event.job = some job) := by
  obtain ⟨s₁, s₂, instances, hretired, hjoined, hstore⟩ := h.store
  obtain ⟨hstays, hstays'⟩ := hk.stays
  obtain ⟨hj, ht⟩ := hretired.kept job hstays
  obtain ⟨hj', ht'⟩ := hjoined.kept job hstays'
  have htimers : s₂.timers = _ := hjoined.timers.trans hretired.timers
  rw [hstore]
  refine ⟨hj'.trans hj, ht'.trans ht, ?_⟩
  dsimp only
  rw [htimers, Timers.keep, List.filter_filter]
  refine List.filter_congr fun t _ => ?_
  by_cases hjob : t.event.job = some job
  · simp [hjob, hstays]
  · simp [hjob]

/-- A removed job has no timer, no rank and no unit. -/
theorem Swapped.removed (h : Swapped settings e e') (hr : Removed e.world.catalog settings.catalog job) :
    (∀ t ∈ e'.world.store.timers.entries, t.event.job ≠ some job) ∧
      (e'.world.store.last job).waiterSeq = none ∧ (e'.world.store.last job).reservations = [] := by
  obtain ⟨s₁, s₂, instances, hretired, hjoined, hstore⟩ := h.store
  have hgone := mem_lost.mpr hr
  have htimers : s₂.timers = _ := hjoined.timers.trans hretired.timers
  have hlast : (s₂.last job).waiterSeq = none ∧ (s₂.last job).reservations = [] := by
    by_cases ha : job ∈ lost settings.catalog e.world.catalog
    · obtain ⟨-, -, row, hrow, -, hunits, hrank, -⟩ := hjoined.row job ha
      rw [last_of_row hrow]
      exact ⟨hrank, hunits⟩
    · obtain ⟨hnone, _, tombstone, -, ht, hb⟩ := hretired.buried job hgone
      obtain ⟨hj', ht'⟩ := hjoined.kept job ha
      rw [last_of_tombstone (hj'.trans hnone) (ht'.trans ht)]
      exact ⟨hb.rank, hb.units⟩
  rw [hstore]
  refine ⟨fun t ht hjob => ?_, hlast⟩
  dsimp only at ht
  rw [htimers, Timers.keep, List.mem_filter, hjob] at ht
  simp [hgone] at ht

/-! ## What the calls keep -/

theorem Swapped.ahead (h : Swapped settings e e') : Ahead e.world.store e'.world.store := by
  obtain ⟨s₁, s₂, instances, hretired, hjoined, hstore⟩ := h.store
  have h₂ : Ahead s₁ s₂ := hjoined.ahead
  rw [hstore]
  exact hretired.ahead.trans h₂

theorem Swapped.apart (h : Swapped settings e e') (hs : Apart e.world.store) : Apart e'.world.store := by
  obtain ⟨s₁, s₂, instances, hretired, hjoined, hstore⟩ := h.store
  have h₂ : Apart s₂ := hjoined.apart (hretired.apart hs)
  rw [hstore]
  exact h₂

theorem Swapped.gives (h : Swapped settings e e') : e'.world.store.jobInstance = e.world.store.jobInstance := by
  obtain ⟨s₁, s₂, instances, hretired, hjoined, hstore⟩ := h.store
  rw [hstore]
  exact hjoined.gives.trans hretired.gives

theorem Swapped.charted (h : Swapped settings e e') : e'.Charted := by
  unfold Machine.Charted
  rw [h.executor]
  exact rebuilt_prompt _

/-- What every call keeps of an oracle. -/
structure Sound (s₀ : OracleStore) (e : Machine) : Prop where
  charted : e.Charted
  numbered : Numbered s₀ e
  apart : Apart e.world.store
  gives : e.world.store.jobInstance = some storeInstance

/-- **An input goes onward from where it starts.** -/
theorem input_onward (he : e.Charted) (fuel : Nat) (at_ : Instant) (evs : List Event) :
    Onward e.world.store ((Oracle.input fuel at_ evs).after e).world.store := by
  have hclosed : Closed Onward fun x : Machine => Onward e.world.store x.world.store := {
    respected := onward_respected .scan
    commit := fun _ => keeps_commit_onward
    rebuild := fun _ => Verb.keeps_onward (v := .restoreInstances) rfl
    world := fun _ _ h hw => h.trans hw.store
    executor := fun x x' h hx => by
      have hstore : x'.records.world.store = x.world.store := congrArg World.store hx
      have hgoal : Onward e.world.store x'.records.world.store := hstore ▸ h
      exact hgoal
    turn := fun _ _ h hx hround => h.trans (round_advances onward_respected onward_mirror hx hround).store }
  exact (hclosed.conserved.input fuel at_ evs e ⟨he, .refl _⟩).2

theorem Sound.call {s₀ : OracleStore} (h : Sound s₀ e) (c : Call) : Sound s₀ (c.run.after e) := by
  cases c with
  | input fuel at_ evs =>
    rw [Call.run, after_discard]
    obtain ⟨hcharted, hnumbered⟩ := (numbered_closed s₀).conserved.input fuel at_ evs e ⟨h.charted, h.numbered⟩
    have honward := input_onward h.charted fuel at_ evs
    exact ⟨hcharted, hnumbered, honward.apart h.apart, honward.gives.trans h.gives⟩
  | swap settings =>
    rw [Call.run, after_discard]
    rcases replaceCatalog_cases settings h.apart h.gives with ⟨-, hstay⟩ | ⟨-, hswapped⟩
    · rw [hstay]
      exact h
    · exact ⟨hswapped.charted, h.numbered.ahead hswapped.taken hswapped.ahead, hswapped.apart h.apart,
        hswapped.gives.trans h.gives⟩

theorem Sound.after {s₀ : OracleStore} {calls : List Call} (h : Sound s₀ e) (hafter : After e calls e') :
    Sound s₀ e' := by
  induction hafter with
  | none => exact h
  | call _ _ ih => exact ih.call _

/-! ## Revisions -/

/-- A revision of a job that its row has passed, or will have when the job is added again. -/
def Past (job : String) (rev : Nat) (s : OracleStore) : Prop :=
  rev < (s.last job).stateRev ∨
    s.jobs.get? job = none ∧ ∃ tombstone, s.tombstones.get? job = some tombstone ∧ rev ≤ tombstone.stateRev

variable {rev : Nat}

theorem Past.row (h : Past job rev s) {row : JobRuntime Instant} (hrow : s.jobs.get? job = some row) :
    rev < row.stateRev := by
  rcases h with h | ⟨hnone, -⟩
  · rwa [last_of_row hrow] at h
  · rw [hrow] at hnone
    cases hnone

theorem Past.onward (h : Past job rev s) (hs : Apart s) (h' : Onward s s') : Past job rev s' := by
  rcases h with h | ⟨-, tombstone, ht, hle⟩
  · exact Or.inl (h.trans_le (h'.ahead job).2)
  · have ht' : s'.tombstones.get? job = some tombstone := h'.tombstones ▸ ht
    exact Or.inr ⟨(h'.apart hs job).resolve_right (by simp [ht']), tombstone, ht', hle⟩

/-- What a removal and an addition make of the record of a removed name. -/
theorem past_joined {s₁ s₂ : OracleStore} {added : List String} {tombstone : JobRuntime Instant}
    (hnone : s₁.jobs.get? job = none) (ht : s₁.tombstones.get? job = some tombstone) (hle : rev ≤ tombstone.stateRev)
    (hjoined : Joined s₁ s₂ added) : Past job rev s₂ := by
  by_cases ha : job ∈ added
  · obtain ⟨-, -, row, hrow, -, -, -, -, hlt⟩ := hjoined.row job ha
    have hrev := hlt (by simp [ht])
    rw [last_of_tombstone hnone ht] at hrev
    exact Or.inl (by rw [last_of_row hrow]; exact hle.trans_lt hrev)
  · obtain ⟨hj, htomb⟩ := hjoined.kept job ha
    exact Or.inr ⟨hj.trans hnone, tombstone, htomb.trans ht, hle⟩

theorem Past.swapped (h : Past job rev e.world.store) (h' : Swapped settings e e') : Past job rev e'.world.store := by
  rcases h with h | ⟨hnone, tombstone, ht, hle⟩
  · exact Or.inl (h.trans_le (h'.ahead job).2)
  · obtain ⟨s₁, s₂, instances, hretired, hjoined, hstore⟩ := h'.store
    have hkept : job ∉ lost e.world.catalog settings.catalog := by
      intro hj
      obtain ⟨-, row, -, hrow, -⟩ := hretired.buried job hj
      rw [hrow] at hnone
      cases hnone
    obtain ⟨hj, htomb⟩ := hretired.kept job hkept
    have hpast : Past job rev s₂ := past_joined (hj.trans hnone) (htomb.trans ht) hle hjoined
    rw [hstore]
    exact hpast

/-- **A removal passes every revision its name had.** -/
theorem Swapped.past (h : Swapped settings e e') (hj : job ∈ lost e.world.catalog settings.catalog)
    (hle : rev ≤ (e.world.store.last job).stateRev) : Past job rev e'.world.store := by
  obtain ⟨s₁, s₂, instances, hretired, hjoined, hstore⟩ := h.store
  obtain ⟨hnone, row, tombstone, hrow, ht, hb⟩ := hretired.buried job hj
  rw [last_of_row hrow, ← hb.rev] at hle
  have hpast : Past job rev s₂ := past_joined hnone ht hle hjoined
  rw [hstore]
  exact hpast

/-- A call moves no name's numbers back. -/
theorem Sound.call_ahead {s₀ : OracleStore} (h : Sound s₀ e) (c : Call) :
    Ahead e.world.store (c.run.after e).world.store := by
  cases c with
  | input fuel at_ evs =>
    rw [Call.run, after_discard]
    exact (input_onward h.charted fuel at_ evs).ahead
  | swap settings =>
    rw [Call.run, after_discard]
    rcases replaceCatalog_cases settings h.apart h.gives with ⟨-, hstay⟩ | ⟨-, hswapped⟩
    · rw [hstay]
      exact .refl _
    · exact hswapped.ahead

theorem Sound.after_ahead {s₀ : OracleStore} {calls : List Call} (h : Sound s₀ e) (hafter : After e calls e') :
    Ahead e.world.store e'.world.store := by
  induction hafter with
  | none => exact .refl _
  | call before _ ih => exact ih.trans ((h.after before).call_ahead _)

theorem Past.after {s₀ : OracleStore} {calls : List Call} (hsound : Sound s₀ e) (hafter : After e calls e')
    (h : Past job rev e.world.store) : Past job rev e'.world.store := by
  induction hafter with
  | none => exact h
  | @call _ c e' before _ ih =>
    have hbefore := hsound.after before
    cases c with
    | input fuel at_ evs =>
      rw [Call.run, after_discard]
      exact ih.onward hbefore.apart (input_onward hbefore.charted fuel at_ evs)
    | swap settings =>
      rw [Call.run, after_discard]
      rcases replaceCatalog_cases settings hbefore.apart hbefore.gives with ⟨-, hstay⟩ | ⟨-, hswapped⟩
      · rw [hstay]
        exact ih
      · exact ih.swapped hswapped

/-! ## Construction -/

/-- The rows a period carries have no name with both a row and a tombstone. -/
def Carried.Apart (c : Carried) : Prop := ∀ job, c.jobs.get? job = none ∨ c.tombstones.get? job = none

theorem keeps_seedJobs {P : OracleStore → Prop} (hP : Held P) (carried : Dict String (JobRuntime Instant)) :
    ∀ jobs : List (String × JobIR), Keeps P (seedJobs carried jobs)
  | [] => keeps_pure _
  | (name, ir) :: jobs => by
    have hrest := keeps_seedJobs hP carried jobs
    unfold seedJobs
    split
    · exact (hP.verb (.seedJob name _ _ _) rfl).bind fun _ => hrest
    · exact hrest

theorem keeps_seedGlobals {P : OracleStore → Prop} (hP : Held P) (carried : Dict String GlobalRuntime) :
    ∀ globals : List (String × String), Keeps P (seedGlobals carried globals)
  | [] => keeps_pure _
  | (name, value) :: globals => by
    have hrest := keeps_seedGlobals hP carried globals
    unfold seedGlobals
    split
    · exact (hP.verb (.setGlobal name value) rfl).bind fun _ => hrest
    · exact hrest

theorem keeps_assemble_apart (event : AssemblyEvent) :
    Keeps Apart (RuntimeState.assemble event : RuntimeM Instant Scalar _) := by
  refine keeps_get.bind fun s => ?_
  split
  · exact keeps_modify fun _ hs => hs
  · exact keeps_throw _

/-- An install that returns lands the carried rows. -/
theorem install_apart {c : Carried} (hc : c.Apart)
    (h : (RuntimeState.install c.toCarriedRows).result s = .ok ()) :
    Apart ((RuntimeState.install c.toCarriedRows).after s) := by
  have hrestore : Keeps (fun s : OracleStore => s.jobs = c.jobs) restoreInstances := by
    refine keeps_get.bind fun s => ?_
    split
    · exact keeps_modify fun _ hs => hs
    · split
      · exact keeps_modify fun _ hs => hs
      · exact keeps_throw _
  obtain ⟨_, -, h, hafter⟩ := bind_result_ok h
  obtain ⟨_, -, h, hafter'⟩ := bind_result_ok h
  obtain ⟨_, -, -, hafter''⟩ := bind_result_ok h
  rw [RuntimeState.install, hafter, hafter', hafter'', after_modify]
  intro job
  dsimp only
  have hjobs : ∀ s : OracleStore, s.jobs = c.jobs → (restoreInstances.after s).jobs = c.jobs := hrestore
  rw [hjobs]
  · exact hc job
  · rfl

theorem seedPeriod_apart (periodId : Int) : Keeps Apart (RuntimeState.seedPeriod periodId : RuntimeM Instant Scalar _) := by
  have hread : Keeps Apart (RuntimeState.readAssembly .seedPeriod : RuntimeM Instant Scalar _) := by
    refine keeps_get.bind fun s => ?_
    split
    · exact keeps_pure _
    · exact keeps_throw _
  have hset : Keeps Apart (do
      RuntimeState.assemble .seedPeriod
      modify fun s => { s with periodId } : RuntimeM Instant Scalar Unit) :=
    (keeps_assemble_apart _).bind fun _ => keeps_modify fun _ hs => hs
  refine hread.bind fun _ => ?_
  dsimp only
  split
  · exact (keeps_throw _).bind fun _ => hset
  · exact hset

/-- A computation that, when it returns, leaves a store whose rows give their instances. -/
def Founds (m : RuntimeM Instant Scalar Unit) : Prop :=
  ∀ s, Apart s → m.result s = .ok () → Apart (m.after s) ∧ (m.after s).jobInstance = some storeInstance ∧
    Restored storeInstance (m.after s)

theorem Founds.bind {α : Type} {m : RuntimeM Instant Scalar α} {g : α → RuntimeM Instant Scalar Unit}
    (hm : Keeps Apart m) (hg : ∀ a, Founds (g a)) : Founds (m >>= g) := by
  intro s hs h
  obtain ⟨a, -, hok, hafter⟩ := bind_result_ok h
  rw [hafter]
  exact hg a _ (hm s hs) hok

theorem keepJobInstances_founds : Founds (RuntimeState.keepJobInstances storeInstance) := by
  intro s hs h
  obtain ⟨-, instances, hafter, hrestored⟩ := restoreInstances_spec (f := storeInstance)
    (s := { s with jobInstance := some storeInstance }) (fun _ _ => ⟨_, rfl⟩) rfl
  have hkeep : (RuntimeState.keepJobInstances storeInstance).after s =
      restoreInstances.after { s with jobInstance := some storeInstance } := by
    rw [RuntimeState.keepJobInstances, after_bind, result_modify, after_modify]
  rw [hkeep, hafter]
  exact ⟨hs, rfl, hrestored⟩

/-- What follows the install of a genesis. -/
theorem seeds_founds {catalog : CatalogIR} (carried : Option Carried) : Founds (do
    RuntimeState.beginInput
    seedJobs (carried.elim ∅ (·.jobs)) catalog.jobs.entries
    seedGlobals (carried.elim ∅ (·.globals)) catalog.globalsDeclared.entries
    discard RuntimeState.commitInput
    RuntimeState.finishGenesis
    match carried with
    | some c => RuntimeState.seedPeriod c.periodId
    | none => pure ()
    RuntimeState.keepJobInstances storeInstance) := by
  have hcommit : Keeps Apart (discard RuntimeState.commitInput : RuntimeM Instant Scalar Unit) := by
    intro s hs
    rw [after_discard]
    exact held_apart.commit s hs
  refine .bind (held_apart.verb .beginInput rfl) fun _ => .bind (keeps_seedJobs held_apart _ _) fun _ =>
    .bind (keeps_seedGlobals held_apart _ _) fun _ => .bind hcommit fun _ =>
      .bind (keeps_assemble_apart .finishGenesis) fun _ => ?_
  cases carried with
  | none => exact keepJobInstances_founds
  | some c => exact .bind (seedPeriod_apart c.periodId) fun _ => keepJobInstances_founds

/-- What a genesis that returns leaves. -/
theorem genesis_spec {catalog : CatalogIR} {carried : Option Carried} (hcarried : ∀ c, carried = some c → c.Apart)
    (h : (genesis catalog carried).result {} = .ok ()) :
    Apart ((genesis catalog carried).after {}) ∧
      ((genesis catalog carried).after {}).jobInstance = some storeInstance ∧
      Restored storeInstance ((genesis catalog carried).after {}) := by
  cases carried with
  | none => exact seeds_founds none {} (fun job => Or.inl rfl) h
  | some c =>
    obtain ⟨_, hinstall, hseeds, hafter⟩ := bind_result_ok h
    unfold genesis
    rw [hafter]
    exact seeds_founds (some c) _ (install_apart (hcarried c rfl) hinstall) hseeds

/-- **An oracle is constructed sound.** -/
theorem construct_sound {carried : Option Carried} (hcarried : ∀ c, carried = some c → c.Apart)
    (h : construct settings carried = .ok e) : Sound e.world.store e := by
  unfold construct at h
  dsimp only at h
  split at h
  · cases h
  next hok =>
    cases h
    obtain ⟨hapart, hgives, -⟩ := genesis_spec hcarried hok
    exact ⟨rebuilt_prompt _, .begin rfl, hapart, hgives⟩

/-! ## Runs of calls -/

section Runs

variable {carried : Option Carried} {e₀ e₁ e₂ : Machine} {calls calls₁ calls₂ : List Call}

/-- **No run number of a job is given twice.** Each start gives its job a greater number than every
start of it before, and than any its name came with, through removals and additions. -/
theorem starts_numbered (hcarried : ∀ c, carried = some c → c.Apart) (h₀ : construct settings carried = .ok e₀)
    (h : After e₀ calls e) :
    (e.taken.Pairwise fun t t' => ∀ job, t.Starts job → t'.Starts job → t.number job < t'.number job) ∧
      ∀ t ∈ e.taken, ∀ job, t.Starts job → (e₀.world.store.last job).runNumber < t.number job := by
  have hnumbered := ((construct_sound hcarried h₀).after h).numbered
  exact ⟨hnumbered.increasing, fun t ht job hs => hnumbered.above ht hs⟩

theorem construct_fresh (h : ((genesis settings.catalog none).result {}).isOk = true) :
    construct settings none = .ok (fresh settings) := by
  unfold construct
  dsimp only
  cases hm : (genesis settings.catalog none).result {} with
  | error err =>
    rw [hm] at h
    cases h
  | ok _ => rfl

/-- The oracle after some calls that all return. -/
def returned : List Call → Machine → Option Machine
  | [], e => some e
  | c :: calls, e => if (c.run.result e).isOk then returned calls (c.run.after e) else none

theorem After.cons {c : Call} (hc : c.Ended e) (h : After (c.run.after e) calls e') : After e (c :: calls) e' := by
  induction h with
  | none => exact .call .none hc
  | call before ended ih => exact .call ih ended

theorem after_returned : ∀ {calls : List Call} {e : Machine}, returned calls e = some e' → After e calls e'
  | [], e, h => by
    cases h
    exact .none
  | c :: calls, e, h => by
    unfold returned at h
    split at h
    · next hok =>
      refine .cons (fun hfuel => ?_) (after_returned h)
      rw [hfuel] at hok
      cases hok
    · cases h

/-- A clock that tells nothing. -/
def blindClock : ClockReads where
  windowSide _ _ := none
  today _ _ := none
  calendarHas _ _ _ := none
  weekday _ _ := none
  nextOpening _ _ := none
  startSlot _ _ := none
  mustInstant _ _ _ _ := none

/-- One command. -/
def solo : Settings where
  catalog := { jobs := (∅ : Dict String JobIR).set "a" { jobType := .cmd } }
  clock := blindClock

/-- A start of it. -/
def soloStart (at_ : Instant) : Call :=
  .input 100 at_ [{ at_, kind := .startJob, payload := (∅ : Dict String (Value Scalar)).set "job" (.text "a") }]

/-- The number each start gave it. -/
def soloNumbers (e : Machine) : List Int :=
  (e.taken.filter fun t => t.item.event.name = ACTUAL_START ∧ t.after.raised.isNone).map fun t => t.number "a"

/-- No command. -/
def bare : Settings := { catalog := {}, clock := blindClock }

/-- A job removed and added again between two of its starts: the second has the next number. -/
theorem starts_numbered_readded :
    ∃ e, After (fresh solo) [soloStart 5, .swap bare, .swap solo, soloStart 6] e ∧ soloNumbers e = [1, 2] ∧
      e.taken.Pairwise fun t t' => ∀ job, t.Starts job → t'.Starts job → t.number job < t'.number job := by
  obtain ⟨e, he, hnumbers⟩ := Option.any_eq_true _ _ |>.mp (by decide +kernel :
    (returned [soloStart 5, .swap bare, .swap solo, soloStart 6] (fresh solo)).any (soloNumbers · = [1, 2]) = true)
  have h := after_returned he
  exact ⟨e, h, of_decide_eq_true hnumbers, (starts_numbered (by simp) (construct_fresh (by decide +kernel)) h).1⟩

/-- **A revision read before a removal is never a later row's.** -/
theorem revision_retired {settings' : Settings} {removed added : List String} {row : JobRuntime Instant}
    (hcarried : ∀ c, carried = some c → c.Apart) (h₀ : construct settings carried = .ok e₀)
    (h : After e₀ calls e) (hlater : After e calls₁ e₁)
    (hswap : (replaceCatalog settings').result e₁ = .ok (removed, added)) (hj : job ∈ removed)
    (hlater' : After ((replaceCatalog settings').after e₁) calls₂ e₂)
    (hrow : e₂.world.store.jobs.get? job = some row) :
    e.world.store.entityRevision (.job job) < e₂.world.store.entityRevision (.job job) := by
  have hsound := (construct_sound hcarried h₀).after h
  have hsound₁ := hsound.after hlater
  have hread : e.world.store.entityRevision (.job job) ≤ (e₁.world.store.last job).stateRev :=
    (row_stateRev_le (s := e.world.store)).trans (hsound.after_ahead hlater job).2
  rcases replaceCatalog_cases settings' hsound₁.apart hsound₁.gives with ⟨⟨err, hraise⟩, -⟩ | ⟨hok, hswapped⟩
  · rw [hraise] at hswap
    cases hswap
  · rw [hok] at hswap
    cases hswap
    have hsound₂ : Sound e₀.world.store ((replaceCatalog settings').after e₁) :=
      after_discard (m := replaceCatalog settings') ▸ hsound₁.call (.swap settings')
    have hpast := (hswapped.past hj hread).after hsound₂ hlater'
    have hlt := hpast.row hrow
    rwa [show e₂.world.store.entityRevision (.job job) = row.stateRev by
      rw [RuntimeState.entityRevision, RuntimeState.row, hrow]; rfl]

/-- A revision read at genesis, a run, a removal and an addition. -/
theorem revision_retired_readded :
    ∃ e₁ e₂, After (fresh solo) [soloStart 5] e₁ ∧ After ((replaceCatalog bare).after e₁) [.swap solo] e₂ ∧
      (fresh solo).world.store.entityRevision (.job "a") < e₂.world.store.entityRevision (.job "a") := by
  obtain ⟨e₁, he₁, hlater⟩ := Option.any_eq_true _ _ |>.mp (by decide +kernel :
    (returned [soloStart 5] (fresh solo)).any (fun e₁ =>
      (replaceCatalog bare).result e₁ = .ok (["a"], []) &&
        (returned [.swap solo] ((replaceCatalog bare).after e₁)).any fun e₂ =>
          (e₂.world.store.jobs.get? "a").isSome) = true)
  rw [Bool.and_eq_true, decide_eq_true_eq] at hlater
  obtain ⟨hswap, hlater⟩ := hlater
  obtain ⟨e₂, he₂, hrow⟩ := Option.any_eq_true _ _ |>.mp hlater
  obtain ⟨row, hrow⟩ := Option.isSome_iff_exists.mp hrow
  have h₁ := after_returned he₁
  have h₂ := after_returned he₂
  exact ⟨e₁, e₂, h₁, h₂, revision_retired (by simp) (construct_fresh (by decide +kernel)) .none h₁
    hswap (List.mem_singleton_self "a") h₂ hrow⟩

/-- **A swap happens at once or not at all.** One that raises leaves the oracle as it was. One that
returns removes the jobs only the old catalog has and adds those only the new one has, a job of
another type among both; it leaves the kept jobs as they were, and of a removed job no timer, no
rank and no unit. -/
theorem swap_at_once (settings' : Settings) (hcarried : ∀ c, carried = some c → c.Apart)
    (h₀ : construct settings carried = .ok e₀) (h : After e₀ calls e) :
    let e' := (replaceCatalog settings').after e
    match (replaceCatalog settings').result e with
    | .error _ => e' = e
    | .ok (removed, added) =>
      (∀ job, job ∈ removed ↔ Removed e.world.catalog settings'.catalog job) ∧
      (∀ job, job ∈ added ↔ Removed settings'.catalog e.world.catalog job) ∧
      (∀ job, Kept e.world.catalog settings'.catalog job →
        e'.world.store.jobs.get? job = e.world.store.jobs.get? job ∧
        e'.world.store.tombstones.get? job = e.world.store.tombstones.get? job ∧
        e'.world.store.timers.entries.filter (·.event.job = some job) =
          e.world.store.timers.entries.filter (·.event.job = some job)) ∧
      ∀ job ∈ removed, (∀ t ∈ e'.world.store.timers.entries, t.event.job ≠ some job) ∧
        (e'.world.store.last job).waiterSeq = none ∧ (e'.world.store.last job).reservations = [] := by
  have hsound := (construct_sound hcarried h₀).after h
  dsimp only
  rcases replaceCatalog_cases settings' hsound.apart hsound.gives with ⟨⟨err, hraise⟩, hstay⟩ | ⟨hok, hswapped⟩
  · rw [hraise]
    exact hstay
  · rw [hok]
    exact ⟨fun _ => mem_lost, fun _ => mem_lost, fun _ hk => hswapped.kept hk,
      fun _ hr => hswapped.removed (mem_lost.mp hr)⟩

/-- A removal of the one job. -/
theorem swap_at_once_bare :
    let e' := (replaceCatalog bare).after (fresh solo)
    (∀ t ∈ e'.world.store.timers.entries, t.event.job ≠ some "a") ∧
      (e'.world.store.last "a").waiterSeq = none ∧ (e'.world.store.last "a").reservations = [] := by
  have h₀ : construct solo none = .ok (fresh solo) := construct_fresh (by decide +kernel)
  have hok : (replaceCatalog bare).result (fresh solo) = .ok (["a"], []) := by decide +kernel
  have h := swap_at_once bare (by simp) h₀ .none
  dsimp only at h
  rw [hok] at h
  exact h.2.2.2 "a" (List.mem_singleton_self "a")

end Runs

end Dsl41.Oracle
