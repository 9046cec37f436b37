import Dsl41.Timing.Pop
import Dsl41.Timing.Replace

/-!
# Every tick once

What a scheduler is for: a timeline of each job's pending ticks, of which a pop fires those due, and
which an update cuts at its instant and continues by the new plan. As long as no plan's calendar
refuses a tick a call asks for, every run of calls serves its timeline.
-/

namespace Dsl41.Timing

open Infra Infra.Effect

variable {Z : Zones}

/-! ## The timeline -/

/-- The ticks each job has still to fire, and the last one it fired. -/
structure Timeline where
  pending : String → Set Instant
  fired : String → Option Instant

namespace Timeline

/-- The order of events: by tick and then by job. -/
def Before (a b : Scheduler.Event) : Prop := a.at_utc < b.at_utc ∨ a.at_utc = b.at_utc ∧ a.job < b.job

/-- The ticks one job fires in some events. -/
def ticksOf (job : String) (events : List Scheduler.Event) : List Instant :=
  (events.filter fun e => e.job = job).map Scheduler.Event.at_utc

/-- A pop fires each pending tick up to its instant, once and in order. -/
structure Pops (a b : Timeline) (upto : Instant) (events : List Scheduler.Event) :
    Prop where
  due : ∀ e, e ∈ events ↔ e.kind = "STARTJOB" ∧ e.at_utc ∈ a.pending e.job ∧ e.at_utc ≤ upto
  sorted : events.Pairwise Before
  pending : ∀ j, b.pending j = {t ∈ a.pending j | upto < t}
  fired : ∀ j, b.fired j = (ticksOf j events).getLast?.or (a.fired j)

/-- What a changed job still owes at an update's instant. -/
def owed (a : Timeline) (upd : Scheduler.Update) (job : String) : Set Instant :=
  {t ∈ a.pending job | job ∈ upd.changed ∧ t ≤ upd.now}

open Classical in
/-- Where a rebuilt job's new plan starts: at the update's instant, or after it where a tick of that
instant is owed, or after the last tick fired where that came later. -/
noncomputable def newStart (a : Timeline) (upd : Scheduler.Update) (job : String) : Instant × Bool :=
  Scheduler.startBeside (a.fired job) upd.now (decide (upd.now ∈ a.owed upd job))

/-- An update keeps what the rebuilt jobs owe, continues them by their new plans and ends the
removed jobs; the others go on. -/
structure Replaced (a b : Timeline) (upd : Scheduler.Update) (Z : Zones) : Prop where
  rebuilt : ∀ j, j ∈ upd.added ∨ j ∈ upd.changed → b.pending j = a.owed upd j ∪
    {t | Scheduler.TicksOf (Scheduler.planOf Z upd.catalog upd.settings j) (a.newStart upd j) t}
  removed : ∀ j, j ∉ upd.added → j ∉ upd.changed → j ∈ upd.removed → b.pending j = ∅
  kept : ∀ j, j ∉ upd.added → j ∉ upd.changed → j ∉ upd.removed → b.pending j = a.pending j
  fired : b.fired = a.fired

end Timeline

namespace Scheduler

variable {s s' : Scheduler Z} {job j : String} {upto : Instant} {upd : Update}

/-- The timeline a scheduler holds. -/
def timeline (s : Scheduler Z) : Timeline where
  pending j := {t | s.Pending j t}
  fired j := s.consumed.get? j

/-! ## Calls -/

inductive Call
  | popDue (upto : Instant)
  | replace (upd : Update)

/-- What a call answers and what it leaves. -/
def call (s : Scheduler Z) : Call → Except EngineError (List Event) × Scheduler Z
  | .popDue upto => ((popDue upto).result s, (popDue upto).after s)
  | .replace upd => ((fun _ => []) <$> (replace upd).result s, (replace upd).after s)

/-- The events of a run of calls, and what it leaves. -/
def run (s : Scheduler Z) : List Call → List Event × Scheduler Z
  | [] => ([], s)
  | c :: calls =>
    let rest := (s.call c).2.run calls
    ((s.call c).1.toOption.getD [] ++ rest.1, rest.2)

/-- No plan's calendar refuses a tick that the call asks for: a pop reads each job's ticks up to its
instant, and an accepted update the first tick of each new plan whose job owes none. -/
def Answered (s : Scheduler Z) : Call → Prop
  | .popDue upto => ∀ j, ∃ found, s.pendingUntil j upto = .ok found
  | .replace upd => upd.Accepted s → ∀ j ∈ upd.rebuilt,
      s.Starts upd.now (upd.owes s j) j (planOf Z upd.catalog upd.settings j)

def AllAnswered (s : Scheduler Z) : List Call → Prop
  | [] => True
  | c :: calls => s.Answered c ∧ (s.call c).2.AllAnswered calls

/-- A call does to the scheduler what it does to its timeline; a refused update does nothing. -/
def ServesCall (s : Scheduler Z) : Call → Prop
  | .popDue upto => ∃ events, (s.call (.popDue upto)).1 = .ok events ∧
      s.timeline.Pops (s.call (.popDue upto)).2.timeline upto events
  | .replace upd =>
    (s.call (.replace upd)).1 = .ok [] ∧ s.timeline.Replaced (s.call (.replace upd)).2.timeline upd Z ∨
      (∃ e, (s.call (.replace upd)).1 = .error e) ∧ (s.call (.replace upd)).2 = s

def Serves (s : Scheduler Z) : List Call → Prop
  | [] => True
  | c :: calls => s.ServesCall c ∧ (s.call c).2.Serves calls

/-! ## The constructor -/

theorem anchor_spec {start : Instant} {plans : List (String × SchedulePlan Z)}
    {first : List (String × Instant)} (h : anchor start plans = .ok first) :
    first = plans.filterMap fun e => (e.2.occ start true).map (e.1, ·) := by
  induction plans generalizing first with
  | nil =>
    cases h
    rfl
  | cons e plans ih =>
    obtain ⟨found, hfound, h⟩ := bind_eq_ok.mp h
    obtain ⟨rest, hrest, h⟩ := bind_eq_ok.mp h
    have hocc := occ_ok hfound
    rw [List.filterMap_cons, hocc, ← ih hrest]
    cases found with
    | none =>
      cases h
      rfl
    | some tick =>
      cases h
      rfl

theorem setAll_get? {υ : Type} {entries : List (String × υ)} {v : υ}
    (hnodup : (entries.map Prod.fst).Nodup) : (setAll entries).get? j = some v ↔ (j, v) ∈ entries := by
  have h : (Dict.setAll Prod.fst Prod.snd entries ∅).get? j = some v ↔ _ := Dict.get?_setAll hnodup
  rw [Dict.get?_empty] at h
  simpa [Dict.setAll, setAll] using h

theorem nodup_filterMap {υ φ : Type} {f : υ → Option φ} {entries : List (String × υ)}
    (hnodup : (entries.map Prod.fst).Nodup) :
    ((entries.filterMap fun e => (f e.2).map (e.1, ·)).map Prod.fst).Nodup := by
  induction entries with
  | nil => exact List.nodup_nil
  | cons e entries ih =>
    obtain ⟨hfresh, hnodup⟩ := List.nodup_cons.mp hnodup
    rw [List.filterMap_cons]
    cases f e.2 with
    | none => exact ih hnodup
    | some v =>
      refine List.nodup_cons.mpr ⟨fun hmem => hfresh ?_, ih hnodup⟩
      obtain ⟨e', he', heq⟩ := List.mem_map.mp hmem
      obtain ⟨o, ho, hf⟩ := List.mem_filterMap.mp he'
      obtain ⟨v', -, rfl⟩ := Option.map_eq_some_iff.mp hf
      exact heq ▸ List.mem_map_of_mem ho

theorem anchored_get? {plans : Dict String (SchedulePlan Z)} {start : Instant} :
    (setAll (plans.entries.filterMap fun e => (e.2.occ start true).map (e.1, ·))).get? j =
      (plans.get? j).bind (·.occ start true) := by
  have hnodup : ((plans.entries.filterMap fun e => (e.2.occ start true).map (e.1, ·)).map Prod.fst).Nodup :=
    nodup_filterMap (f := fun p : SchedulePlan Z => p.occ start true) plans.nodup
  ext t
  rw [setAll_get? hnodup, List.mem_filterMap, Option.bind_eq_some_iff]
  constructor
  · rintro ⟨⟨name, p⟩, he, hmap⟩
    obtain ⟨t', hocc, hpair⟩ := Option.map_eq_some_iff.mp hmap
    cases hpair
    exact ⟨p, Dict.get?_eq_some.mpr he, hocc⟩
  · rintro ⟨p, hp, hocc⟩
    exact ⟨(j, p), Dict.get?_eq_some.mp hp, by rw [hocc]; rfl⟩

theorem compile_unknown {catalog : Catalog} {settings : Settings} {base_tz : Option Z.Zone}
    (h : j ∉ catalog.jobs.keys) : compile catalog settings base_tz j = .ok none := by
  have hnone : catalog.jobs.get? j = none := Dict.get?_eq_none.mpr h
  rw [compile, hnone]
  rfl

/-- A new scheduler: each job's plan, and its first tick at or after the start. -/
theorem create_spec {catalog : Catalog} {start : Instant} {settings : Settings}
    (h : create catalog start settings = .ok s) (j : String) :
    s.plans.get? j = planOf Z catalog settings j ∧
      s.next.get? j = (planOf Z catalog settings j).bind (·.occ start true) ∧
      s.consumed.get? j = none ∧ s.owed.get? j = none := by
  obtain ⟨base_tz, hbase, h⟩ := bind_eq_ok.mp h
  obtain ⟨plans, hplans, h⟩ := bind_eq_ok.mp h
  obtain ⟨first, hfirst, h⟩ := bind_eq_ok.mp h
  cases h
  obtain ⟨hnames, hcompiled⟩ := mapM_pair hplans
  have hnodup : (plans.map Prod.fst).Nodup := hnames ▸ catalog.jobs.keys_nodup
  have hplan : ∀ p, (j, some p) ∈ plans ↔ planOf Z catalog settings j = some p := by
    intro p
    constructor
    · exact fun hmem => planOf_eq hbase (hcompiled _ hmem)
    · intro hp
      by_cases hj : j ∈ catalog.jobs.keys
      · obtain ⟨e, he, rfl⟩ := List.mem_map.mp (hnames.symm ▸ hj)
        have heq : e.2 = some p := (planOf_eq hbase (hcompiled e he)).symm.trans hp
        exact heq ▸ he
      · rw [planOf_eq hbase (compile_unknown hj)] at hp
        cases hp
  have hplans' : ((plans.filterMap fun e => e.2.map fun plan => (e.1, plan)).map Prod.fst).Nodup :=
    nodup_filterMap (f := id) hnodup
  have hheld : (setAll (plans.filterMap fun e => e.2.map fun plan => (e.1, plan))).get? j =
      planOf Z catalog settings j := by
    ext p
    rw [setAll_get? hplans', ← hplan, List.mem_filterMap]
    constructor
    · rintro ⟨⟨name, found⟩, he, hmap⟩
      obtain ⟨p', rfl, hpair⟩ := Option.map_eq_some_iff.mp hmap
      cases hpair
      exact he
    · exact fun hmem => ⟨_, hmem, rfl⟩
  refine ⟨hheld, ?_, rfl, rfl⟩
  rw [← hheld, anchor_spec hfirst]
  exact anchored_get?

/-! ## A pop -/

/-- A scheduler's entries for every job are sound. -/
def AllSound (s : Scheduler Z) : Prop := ∀ j, s.Sound j

theorem create_sound {catalog : Catalog} {start : Instant} {settings : Settings}
    (h : create catalog start settings = .ok s) : s.AllSound := by
  intro j
  obtain ⟨hplan, hnext, hconsumed, howed⟩ := create_spec h j
  refine ⟨fun _ hne => ?_, fun _ _ _ h => ?_, fun c t hc _ => ?_⟩
  · rw [hplan]
    rintro hnone
    rw [hnext, hnone] at hne
    exact hne rfl
  · rw [howed] at h
    cases h
  · rw [hconsumed] at hc
    cases hc

/-- A new scheduler's pending ticks are its plans' from the start on. -/
theorem create_pending {catalog : Catalog} {start : Instant} {settings : Settings}
    (h : create catalog start settings = .ok s) {t : Instant} :
    s.Pending j t ↔ TicksOf (planOf Z catalog settings j) (start, true) t := by
  obtain ⟨hplan, hnext, -, howed⟩ := create_spec h j
  rw [Pending, hnext]
  cases hp : planOf Z catalog settings j with
  | none => simp [TicksOf]
  | some p =>
    rw [Option.bind_some, chain_congr fun v _ => following_free howed (hplan.trans hp)]
    simp [TicksOf, SchedulePlan.Ticks]

theorem eventLe_total (a b : Instant × String) : (eventLe a b || eventLe b a) = true := by
  simp only [eventLe, Bool.or_eq_true, decide_eq_true_eq]
  rcases lt_trichotomy a.1 b.1 with h | h | h
  · exact Or.inl (Or.inl h)
  · exact (String.le_total a.2 b.2).imp (fun hle => Or.inr ⟨h, hle⟩) fun hle => Or.inr ⟨h.symm, hle⟩
  · exact Or.inr (Or.inl h)

theorem eventLe_trans (a b c : Instant × String) (hab : eventLe a b = true) (hbc : eventLe b c = true) :
    eventLe a c = true := by
  simp only [eventLe, decide_eq_true_eq] at *
  rcases hab with hab | ⟨hab, hab'⟩
  · rcases hbc with hbc | ⟨hbc, -⟩
    · exact Or.inl (hab.trans hbc)
    · exact Or.inl (hab.trans_eq hbc)
  · rcases hbc with hbc | ⟨hbc, hbc'⟩
    · exact Or.inl (hab.trans_lt hbc)
    · exact Or.inr ⟨hab.trans hbc, String.le_trans hab' hbc'⟩

/-- Distinct due ticks come out in the order of their events. -/
theorem sorted_events {due : List (Instant × String)} (hnodup : due.Nodup) :
    ((due.mergeSort eventLe).map fun e => ({ at_utc := e.1, kind := "STARTJOB", job := e.2 } : Event)).Pairwise
      Timeline.Before := by
  have hsorted := List.pairwise_mergeSort eventLe_trans eventLe_total due
  have hdistinct : (due.mergeSort eventLe).Nodup := (List.mergeSort_perm due eventLe).nodup_iff.mpr hnodup
  refine List.pairwise_map.mpr (hsorted.imp₂ (fun a b hle hne => ?_) hdistinct)
  rcases of_decide_eq_true hle with hlt | ⟨heq, hle⟩
  · exact Or.inl hlt
  · exact Or.inr ⟨heq, String.not_le.mp fun hge => hne (Prod.ext heq (String.le_antisymm hle hge))⟩

/-- Ascending lists with the same elements are the same. -/
theorem eq_of_ascending {l l' : List Instant} (hl : l.Pairwise (· < ·)) (hl' : l'.Pairwise (· < ·))
    (hmem : ∀ t, t ∈ l ↔ t ∈ l') : l = l' :=
  ((List.perm_ext_iff_of_nodup (hl.imp ne_of_lt) (hl'.imp ne_of_lt)).mpr hmem).eq_of_pairwise
    (fun _ _ _ _ hab hba => absurd (hab.trans hba) (lt_irrefl _)) hl hl'

theorem mem_ticksOf {events : List Event} {t : Instant} :
    t ∈ Timeline.ticksOf j events ↔ ∃ e ∈ events, e.job = j ∧ e.at_utc = t := by
  simp [Timeline.ticksOf, and_assoc]

/-- The ticks of one job among ordered events ascend. -/
theorem ticksOf_ascending {events : List Event} (h : events.Pairwise Timeline.Before) :
    (Timeline.ticksOf j events).Pairwise (· < ·) := by
  refine List.pairwise_map.mpr ((h.filter _).imp_of_mem fun {a b} ha hb hbefore => ?_)
  have hjob : a.job = b.job :=
    (of_decide_eq_true (List.mem_filter.mp ha).2).trans (of_decide_eq_true (List.mem_filter.mp hb).2).symm
  rcases hbefore with hlt | ⟨-, hlt⟩
  · exact hlt
  · exact absurd (hjob ▸ hlt) (String.not_lt.mpr (String.le_refl _))

/-- Popping where every job's ticks answer does to each job what it does to its timeline. -/
theorem popDue_serves (hs : s.AllSound) (h : s.Answered (.popDue upto)) :
    s.ServesCall (.popDue upto) ∧ (s.call (.popDue upto)).2.AllSound := by
  choose W hwalk using h
  have hw : ∀ j, s.Walked j upto (s.next.get? j) (W j).1 (W j).2 := fun j => walk_spec le_rfl (hwalk j)
  obtain ⟨hresult, hpopped⟩ := popDue_spec hwalk
  refine ⟨⟨_, hresult, ?_⟩, fun j => (hpopped j).sound (hs j) (hw j)⟩
  -- the due ticks: each job's, where it has a next one
  generalize hdue : (s.next.entries.flatMap fun e => (W e.1).1.map (·, e.1)) = due
  have hmem : ∀ t j, (t, j) ∈ due ↔ t ∈ (W j).1 := by
    intro t j
    rw [← hdue, List.mem_flatMap]
    constructor
    · rintro ⟨e, -, he⟩
      obtain ⟨t', ht', hpair⟩ := List.mem_map.mp he
      cases hpair
      exact ht'
    · intro ht
      obtain ⟨first, hfirst, -⟩ := pending_head (((hw j).due t).mp ht).1
      exact ⟨(j, first), Dict.get?_eq_some.mp hfirst, List.mem_map_of_mem ht⟩
  have hnodup : due.Nodup := by
    rw [← hdue, List.nodup_flatMap]
    refine ⟨fun e _ => List.Nodup.map (fun _ _ hpair => congrArg Prod.fst hpair)
      ((hw e.1).sorted.imp ne_of_lt), ?_⟩
    refine (List.pairwise_map.mp s.next.nodup).imp fun {a b} hne => ?_
    intro x hxa hxb
    obtain ⟨_, -, rfl⟩ := List.mem_map.mp hxa
    obtain ⟨_, -, hpair⟩ := List.mem_map.mp hxb
    exact hne (congrArg Prod.snd hpair).symm
  have hevents : ∀ e : Event, e ∈ ((due.mergeSort eventLe).map fun e =>
      ({ at_utc := e.1, kind := "STARTJOB", job := e.2 } : Event)) ↔
      e.kind = "STARTJOB" ∧ e.at_utc ∈ (W e.job).1 := by
    intro e
    rw [List.mem_map]
    constructor
    · rintro ⟨⟨t, j⟩, hx, rfl⟩
      exact ⟨rfl, (hmem t j).mp (List.mem_mergeSort.mp hx)⟩
    · rintro ⟨hkind, ht⟩
      refine ⟨(e.at_utc, e.job), List.mem_mergeSort.mpr ((hmem _ _).mpr ht), ?_⟩
      rw [← hkind]
  refine ⟨fun e => ?_, sorted_events hnodup, fun j => ?_, fun j => ?_⟩
  · rw [hevents, (hw e.job).due]
    rfl
  · exact Set.ext fun t => (hpopped j).pending (hs j) (hw j)
  · have hticks : Timeline.ticksOf j ((due.mergeSort eventLe).map fun e =>
        ({ at_utc := e.1, kind := "STARTJOB", job := e.2 } : Event)) = (W j).1 := by
      refine eq_of_ascending (ticksOf_ascending (sorted_events hnodup)) (hw j).sorted fun t => ?_
      rw [mem_ticksOf]
      constructor
      · rintro ⟨e, he, rfl, rfl⟩
        exact ((hevents e).mp he).2
      · intro ht
        exact ⟨⟨t, "STARTJOB", j⟩, (hevents _).mpr ⟨rfl, ht⟩, rfl, rfl⟩
    rw [hticks]
    exact (hpopped j).consumed

/-! ## An update -/

/-- What a changed job owes is what was pending up to the instant, in order. -/
theorem owes_spec (haccept : upd.Accepted s) :
    (upd.owes s j).Pairwise (· < ·) ∧ ∀ t, t ∈ upd.owes s j ↔ t ∈ s.timeline.owed upd j := by
  obtain ⟨owes, howes⟩ := haccept.owed
  obtain ⟨hnames, hread⟩ := mapM_pair howes
  unfold Update.owes
  split
  · next hchanged =>
    obtain ⟨e, he, rfl⟩ := List.mem_map.mp (hnames.symm ▸ hchanged)
    have hok := hread e he
    rw [hok]
    obtain ⟨⟨ticks, rest⟩, hwalk, hfst⟩ := map_eq_ok.mp hok
    have hw := walk_spec le_rfl hwalk
    obtain rfl : ticks = e.2 := hfst
    refine ⟨hw.sorted, fun t => ?_⟩
    show t ∈ e.2 ↔ _
    rw [hw.due]
    exact ⟨fun h => ⟨h.1, hchanged, h.2⟩, fun h => ⟨h.1, h.2.2⟩⟩
  · next hchanged =>
    exact ⟨.nil, fun t => ⟨fun h => absurd h List.not_mem_nil, fun h => absurd h.2.1 hchanged⟩⟩

theorem Dropped.pending (h : Dropped s s' j) {t : Instant} : ¬s'.Pending j t := by
  rw [Pending, h.next]
  exact not_chain_none

theorem Dropped.sound (h : Dropped s s' j) : s'.Sound j where
  plan _ hnext := absurd h.next hnext
  owed _ _ _ howed := by
    rw [h.owed] at howed
    cases howed
  consumed _ _ _ ht := by
    rw [h.next] at ht
    cases ht

/-- An update whose new plans answer does to each job what it does to its timeline. -/
theorem replace_serves (hs : s.AllSound) (h : s.Answered (.replace upd)) :
    s.ServesCall (.replace upd) ∧ (s.call (.replace upd)).2.AllSound := by
  by_cases haccept : upd.Accepted s
  · obtain ⟨hresult, hin, hremoved, hkept⟩ := replace_spec haccept (h haccept)
    have hdue : ∀ j, ∀ t ∈ upd.owes s j, t ≤ upd.now := fun j t ht => (((owes_spec haccept).2 t).mp ht).2.2
    have hfresh : ∀ j, ∀ t ∈ upd.owes s j, ∀ c ∈ s.consumed.get? j, c < t := fun j t ht =>
      (hs j).fresh (((owes_spec haccept).2 t).mp ht).1
    have hconsumed : ∀ j, (s.call (.replace upd)).2.consumed.get? j = s.consumed.get? j := by
      intro j
      by_cases hj : j ∈ upd.rebuilt
      · exact (hin j hj).consumed
      · by_cases hj' : j ∈ upd.removed
        · exact (hremoved j hj hj').consumed
        · exact (hkept j hj hj').consumed
    have hrebuilt : ∀ j, j ∉ upd.added → j ∉ upd.changed → j ∉ upd.rebuilt := fun j ha hc hj =>
      (mem_rebuilt.mp hj).elim ha hc
    refine ⟨Or.inl ⟨?_, ?_⟩, fun j => ?_⟩
    · rw [call, hresult]
      rfl
    · refine ⟨fun j hj => ?_, fun j ha hc hj => ?_, fun j ha hc hj => ?_, funext hconsumed⟩
      · ext t
        obtain ⟨hsorted, howes⟩ := owes_spec (j := j) haccept
        have hpending := (hin j (mem_rebuilt.mpr hj)).pending (u := t) hsorted (hdue j) (hfresh j)
        have howed : decide (upd.now ∈ upd.owes s j) =
            @decide (upd.now ∈ s.timeline.owed upd j) (Classical.propDecidable _) :=
          decide_eq_decide.mpr (howes upd.now)
        rw [howes, howed] at hpending
        exact hpending
      · exact Set.eq_empty_of_forall_notMem fun t => (hremoved j (hrebuilt j ha hc) hj).pending
      · exact Set.ext fun t => iff_of_eq (congrFun (hkept j (hrebuilt j ha hc) hj).pending t)
    · by_cases hj : j ∈ upd.rebuilt
      · exact (hin j hj).sound (owes_spec haccept).1 (hdue j) (hfresh j)
      · by_cases hj' : j ∈ upd.removed
        · exact (hremoved j hj hj').sound
        · exact (hkept j hj hj').sound (hs j)
  · obtain ⟨⟨e, hresult⟩, hafter⟩ := replace_refused haccept
    refine ⟨Or.inr ⟨⟨e, ?_⟩, hafter⟩, fun j => ?_⟩
    · rw [call, hresult]
      rfl
    · have hkept : (s.call (.replace upd)).2 = s := hafter
      exact hkept.symm ▸ hs j

/-! ## Runs -/

/-- One answered call serves its timeline and leaves a sound scheduler. -/
theorem call_serves {c : Call} (hs : s.AllSound) (h : s.Answered c) :
    s.ServesCall c ∧ (s.call c).2.AllSound := by
  cases c with
  | popDue upto => exact popDue_serves hs h
  | replace upd => exact replace_serves hs h

theorem run_serves {calls : List Call} (hs : s.AllSound) (h : s.AllAnswered calls) : s.Serves calls := by
  induction calls generalizing s with
  | nil => trivial
  | cons c calls ih =>
    obtain ⟨hserves, hsound⟩ := call_serves hs h.1
    exact ⟨hserves, ih hsound h.2⟩

/-- A call that serves its timeline fires ascending ticks, each after the last fired, and leaves as
the last fired the greatest of them. -/
theorem ServesCall.ascends {c : Call} (hs : s.AllSound) (h : s.ServesCall c) :
    (Timeline.ticksOf j ((s.call c).1.toOption.getD [])).Pairwise (· < ·) ∧
      (∀ t ∈ Timeline.ticksOf j ((s.call c).1.toOption.getD []), ∀ seen ∈ s.consumed.get? j, seen < t) ∧
      (s.call c).2.consumed.get? j =
        (Timeline.ticksOf j ((s.call c).1.toOption.getD [])).getLast?.or (s.consumed.get? j) := by
  cases c with
  | popDue upto =>
    obtain ⟨events, hevents, hpops⟩ := h
    rw [hevents]
    refine ⟨ticksOf_ascending hpops.sorted, fun t ht seen hseen => ?_, hpops.fired j⟩
    obtain ⟨e, he, rfl, rfl⟩ := mem_ticksOf.mp ht
    exact (hs e.job).fresh ((hpops.due e).mp he).2.1 seen hseen
  | replace upd =>
    rcases h with ⟨hok, hreplaced⟩ | ⟨⟨e, herror⟩, hsame⟩
    · rw [hok]
      exact ⟨.nil, fun t ht => absurd ht List.not_mem_nil, congrFun hreplaced.fired j⟩
    · rw [herror, hsame]
      exact ⟨.nil, fun t ht => absurd ht List.not_mem_nil, rfl⟩

theorem ticksOf_append {events later : List Event} :
    Timeline.ticksOf j (events ++ later) = Timeline.ticksOf j events ++ Timeline.ticksOf j later := by
  rw [Timeline.ticksOf, List.filter_append, List.map_append]
  rfl

/-- The ticks of one job over a whole run ascend, and come after what was fired before it. -/
theorem run_ascends {calls : List Call} (hs : s.AllSound) (h : s.AllAnswered calls) :
    (Timeline.ticksOf j (s.run calls).1).Pairwise (· < ·) ∧
      ∀ t ∈ Timeline.ticksOf j (s.run calls).1, ∀ seen ∈ s.consumed.get? j, seen < t := by
  induction calls generalizing s with
  | nil => exact ⟨.nil, fun t ht => absurd ht List.not_mem_nil⟩
  | cons c calls ih =>
    obtain ⟨hserves, hsound⟩ := call_serves hs h.1
    obtain ⟨hascend, hfresh, hfired⟩ := hserves.ascends (j := j) hs
    obtain ⟨hlater, hafter⟩ := ih hsound h.2
    rw [run, ticksOf_append]
    refine ⟨List.pairwise_append.mpr ⟨hascend, hlater, fun t ht u hu => ?_⟩, fun t ht seen hseen => ?_⟩
    · obtain ⟨last, hlast⟩ := exists_getLast ht
      exact (le_getLast hascend hlast ht).trans_lt (hafter u hu last (by rw [hfired, hlast]; rfl))
    · rcases List.mem_append.mp ht with ht | ht
      · exact hfresh t ht seen hseen
      · cases hlast : (Timeline.ticksOf j ((s.call c).1.toOption.getD [])).getLast? with
        | none => exact hafter t ht seen (by rw [hfired, hlast]; exact hseen)
        | some last =>
          exact (hfresh last (List.mem_of_getLast? hlast) seen hseen).trans
            (hafter t ht last (by rw [hfired, hlast]; rfl))

/-- Every run of answered calls from a new scheduler serves the timeline of its plans' ticks from the
start on, and the ticks one job fires ascend. -/
theorem run_serves_timeline {catalog : Catalog} {start : Instant} {settings : Settings}
    (hcreate : create catalog start settings = .ok s) {calls : List Call} (h : s.AllAnswered calls) :
    (∀ j, s.timeline.pending j = {t | TicksOf (planOf Z catalog settings j) (start, true) t}) ∧
      s.Serves calls ∧ ∀ j, (Timeline.ticksOf j (s.run calls).1).Pairwise (· < ·) :=
  ⟨fun _ => Set.ext fun _ => create_pending hcreate, run_serves (create_sound hcreate) h,
    fun _ => (run_ascends (create_sound hcreate) h).1⟩

section Examples

/-- Times of day read in UTC; no other zone resolves. -/
def utc : Zones where
  Zone := Empty
  resolve_timezone _ _ := none
  localDate t _ := t / 86400000000
  to_utc day time _ := day * 86400000000 + (time.1 * 60 + time.2) * 60000000
  start_time_instants day times _ _ :=
    times.map fun time => day * 86400000000 + (time.1 * 60 + time.2) * 60000000
  start_mins_instants day times _ _ :=
    times.map fun time => day * 86400000000 + (time.1 * 60 + time.2) * 60000000

/-- One job, every day at some hour. -/
def daily (hour : Nat) : Catalog where
  jobs := (∅ : Dict String (Option ScheduleBlock)).set "J" (some { start_times := some [(hour, 0)] })
  calendar _ _ := none
  hash := ""

/-- One job on the days of an extended calendar whose every day is a holiday, so that its holiday
action finds no day to go to. -/
def refusing : Catalog where
  jobs := (∅ : Dict String (Option ScheduleBlock)).set "J"
    (some { start_times := some [(0, 0)], run_calendar := some "CAL" })
  calendar _ _ := some (.ok (.extended
    { days_between := fun _ _ =>
        .error (.calendar "CAL: holiday action 'w' found no valid day within a year")
      bound := none }))
  hash := ""

/-- A change of the job at an instant. -/
def change (catalog : Catalog) (now : Instant) : Update where
  catalog := catalog
  added := []
  changed := ["J"]
  removed := []
  now := now
  default_tz := none
  tz_aliases := none
  semantics := none

/-- A midnight tick owed at the change, and then noon. -/
def changing : List Call := [.replace (change (daily 12) 0), .popDue 0, .popDue 86400000000]

/-- Whether calls about the one job are answered. -/
def answers (s : Scheduler utc) : Call → Bool
  | .popDue upto => decide (s.next.keys = ["J"]) && (s.pendingUntil "J" upto).toOption.isSome
  | .replace upd => decide (upd.rebuilt = ["J"]) && (planOf utc upd.catalog upd.settings "J").all fun p =>
      (p.occurrence (s.startOf "J" upd.now).1 (s.startOf "J" upd.now).2).toOption.isSome

def allAnswers (s : Scheduler utc) : List Call → Bool
  | [] => true
  | c :: calls => s.answers c && (s.call c).2.allAnswers calls

theorem exists_ok {ε α : Type} {x : Except ε α} (h : x.toOption.isSome = true) : ∃ a, x = .ok a := by
  cases x with
  | ok a => exact ⟨a, rfl⟩
  | error e => cases h

theorem answered_of_answers {s : Scheduler utc} {c : Call} (h : s.answers c = true) : s.Answered c := by
  cases c with
  | popDue upto =>
    obtain ⟨hkeys, hread⟩ := Bool.and_eq_true_iff.mp h
    intro j
    by_cases hj : j = "J"
    · subst hj
      exact exists_ok hread
    · have hnone : s.next.get? j = none :=
        Dict.get?_eq_none.mpr (by simpa [of_decide_eq_true hkeys] using hj)
      rw [pendingUntil, hnone]
      exact ⟨_, rfl⟩
  | replace upd =>
    obtain ⟨hrebuilt, hstarts⟩ := Bool.and_eq_true_iff.mp h
    intro _ j hj _ p hp
    obtain rfl : j = "J" := by simpa [of_decide_eq_true hrebuilt] using hj
    exact exists_ok ((Option.all_eq_true _ _).mp hstarts p hp)

theorem allAnswered_of_allAnswers {s : Scheduler utc} {calls : List Call}
    (h : s.allAnswers calls = true) : s.AllAnswered calls := by
  induction calls generalizing s with
  | nil => trivial
  | cons c calls ih =>
    obtain ⟨hc, hcalls⟩ := Bool.and_eq_true_iff.mp h
    exact ⟨answered_of_answers hc, ih hcalls⟩

theorem run_serves_timeline_changing : ∃ s : Scheduler utc, create (daily 0) 0 {} = .ok s ∧
    s.Serves changing ∧ Timeline.ticksOf "J" (s.run changing).1 = [0, 43200000000] := by
  obtain ⟨s, hcreate, h⟩ := exists_of_any (x := create (Z := utc) (daily 0) 0 {})
    (p := fun s => s.allAnswers changing && decide (Timeline.ticksOf "J" (s.run changing).1 = [0, 43200000000]))
    (by decide +kernel)
  obtain ⟨hanswers, hticks⟩ := Bool.and_eq_true_iff.mp h
  exact ⟨s, hcreate, (run_serves_timeline hcreate (allAnswered_of_allAnswers hanswers)).2.1, of_decide_eq_true hticks⟩

/-- A new plan whose calendar refuses its first day is refused when the old plan has gone. -/
theorem replace_refused_late : ∃ s : Scheduler utc, create (daily 12) 0 {} = .ok s ∧
    s.next.get? "J" = some 43200000000 ∧
    (∃ e, (s.call (.replace (change refusing 0))).1 = .error e) ∧
    (s.call (.replace (change refusing 0))).2.next.get? "J" = none := by
  obtain ⟨s, hcreate, h⟩ := exists_of_any (x := create (Z := utc) (daily 12) 0 {})
    (p := fun s => decide (s.next.get? "J" = some 43200000000) &&
      (s.call (.replace (change refusing 0))).1.toOption.isNone &&
      decide ((s.call (.replace (change refusing 0))).2.next.get? "J" = none))
    (by decide +kernel)
  simp only [Bool.and_eq_true, decide_eq_true_eq] at h
  obtain ⟨⟨hnext, hrefused⟩, hafter⟩ := h
  refine ⟨s, hcreate, hnext, ?_, hafter⟩
  cases hcall : (s.call (.replace (change refusing 0))).1 with
  | error e => exact ⟨e, rfl⟩
  | ok events =>
    rw [hcall] at hrefused
    cases hrefused

end Examples

end Scheduler

end Dsl41.Timing
