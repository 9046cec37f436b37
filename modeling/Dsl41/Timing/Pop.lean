import Dsl41.Timing.Walk

/-!
# Popping the due ticks

Each job's due ticks are consumed on their own: a job's step leaves the other jobs' entries as
they were, and the whole call leaves each job's as its own walk does.
-/

namespace Dsl41.Timing

open Infra Infra.Effect

namespace Scheduler

variable {Z : Zones} {s s' : Scheduler Z} {job j : String} {t tick upto : Instant}
  {ticks : List Instant} {rest : Option Instant}

/-! ## One job -/

variable (s job ticks) in
/-- The last of the ticks is consumed, and with the last owed one the owed ticks go. -/
def consume : Scheduler Z :=
  match ticks.getLast? with
  | none => s
  | some last =>
    { s with
      consumed := s.consumed.set job last
      owed := if finishes (s.owed.get? job) ticks then s.owed.erase job else s.owed }

variable (s job ticks rest) in
def pop : Scheduler Z :=
  match rest with
  | none => s.consume job ticks
  | some tick => { s.consume job ticks with next := s.next.set job tick }

theorem consume_plans : (s.consume job ticks).plans = s.plans := by
  unfold consume
  split
  · rfl
  · rfl

theorem consume_next : (s.consume job ticks).next = s.next := by
  unfold consume
  split
  · rfl
  · rfl

theorem consume_consumed : (s.consume job ticks).consumed.get? j =
    if j = job then ticks.getLast?.or (s.consumed.get? job) else s.consumed.get? j := by
  unfold consume
  cases ticks.getLast? with
  | none =>
    dsimp only
    split
    · next heq => rw [heq, Option.none_or]
    · rfl
  | some last => exact Dict.get?_set

theorem consume_owed : (s.consume job ticks).owed.get? j =
    if j = job ∧ finishes (s.owed.get? job) ticks = true then none else s.owed.get? j := by
  unfold consume
  cases hlast : ticks.getLast? with
  | none =>
    have hnot : finishes (s.owed.get? job) ticks = false := by
      unfold finishes
      rw [hlast]
      cases s.owed.get? job with
      | none => rfl
      | some o => simp
    simp [hnot]
  | some last =>
    by_cases hfin : finishes (s.owed.get? job) ticks = true
    · rw [if_pos hfin, Dict.get?_erase]
      simp [hfin]
    · simp [hfin]

theorem pop_other (hj : j ≠ job) : SameAt s (s.pop job ticks rest) j where
  plans := by
    unfold pop
    split
    · rw [consume_plans]
    · exact congrArg (Dict.get? · j) consume_plans
  next := by
    unfold pop
    split
    · rw [consume_next]
    · exact Dict.get?_set_ne hj
  consumed := by
    unfold pop
    split
    · rw [consume_consumed, if_neg hj]
    · exact consume_consumed.trans (if_neg hj)
  owed := by
    unfold pop
    split
    · rw [consume_owed, if_neg (fun h => hj h.1)]
    · exact consume_owed.trans (if_neg fun h => hj h.1)

/-- One job's entries after its step; a job with nothing left still has its old next tick. -/
structure Stepped (s s' : Scheduler Z) (job : String) (ticks : List Instant) (rest : Option Instant) :
    Prop where
  plans : s'.plans.get? job = s.plans.get? job
  next : s'.next.get? job = rest.or (s.next.get? job)
  consumed : s'.consumed.get? job = ticks.getLast?.or (s.consumed.get? job)
  owed : s'.owed.get? job = if finishes (s.owed.get? job) ticks then none else s.owed.get? job

theorem Stepped.congr {r r' : Scheduler Z} (h : Stepped s s' job ticks rest) (hr : SameAt r s job)
    (hr' : SameAt s' r' job) : Stepped r r' job ticks rest where
  plans := by rw [hr'.plans, h.plans, hr.plans]
  next := by rw [hr'.next, h.next, hr.next]
  consumed := by rw [hr'.consumed, h.consumed, hr.consumed]
  owed := by rw [hr'.owed, h.owed, hr.owed]

theorem pop_stepped : Stepped s (s.pop job ticks rest) job ticks rest := by
  have hconsumed : (s.consume job ticks).consumed.get? job = _ := consume_consumed.trans (if_pos rfl)
  have howed : (s.consume job ticks).owed.get? job = _ := consume_owed
  simp only [true_and] at howed
  cases rest with
  | none =>
    exact ⟨by rw [pop, consume_plans], by rw [pop, consume_next, Option.none_or], hconsumed, howed⟩
  | some tick => exact ⟨congrArg (Dict.get? · job) consume_plans, Dict.get?_set_self, hconsumed, howed⟩

theorem popOne_spec (hwalk : s.walk job upto (turns upto (some tick)) (some tick) = .ok (ticks, rest)) :
    (popOne upto job tick).result s = .ok (ticks, rest.isNone) ∧
      (popOne upto job tick).after s = s.pop job ticks rest := by
  unfold popOne pop consume finishes
  simp only [result_bind, after_bind, result_get, after_get, result_ofExcept, after_ofExcept, hwalk]
  cases ticks.getLast? with
  | none =>
    cases rest with
    | none => exact ⟨rfl, rfl⟩
    | some tick => exact ⟨rfl, rfl⟩
  | some last =>
    dsimp only [Option.any_some]
    split
    · cases rest with
      | none => exact ⟨rfl, rfl⟩
      | some tick => exact ⟨rfl, rfl⟩
    · cases rest with
      | none => exact ⟨rfl, rfl⟩
      | some tick => exact ⟨rfl, rfl⟩

/-! ## Every job -/

/-- Each job's step over distinct jobs, from what each one's walk reads. -/
theorem popEach_spec {W : String → List Instant × Option Instant} {jobs : List (String × Instant)}
    (hnodup : (jobs.map Prod.fst).Nodup)
    (hwalk : ∀ e ∈ jobs, s.walk e.1 upto (turns upto (some e.2)) (some e.2) = .ok (W e.1)) :
    (popEach upto jobs).result s = .ok (jobs.flatMap fun e => (W e.1).1.map (·, e.1),
        (jobs.filter fun e => (W e.1).2.isNone).map Prod.fst) ∧
      (∀ j ∈ jobs.map Prod.fst, Stepped s ((popEach upto jobs).after s) j (W j).1 (W j).2) ∧
      ∀ j ∉ jobs.map Prod.fst, SameAt s ((popEach upto jobs).after s) j := by
  -- induction on the jobs still to step; their walks do not see the steps already made
  induction jobs generalizing s with
  | nil => exact ⟨rfl, fun j hj => absurd hj List.not_mem_nil, fun j _ => SameAt.refl⟩
  | cons e jobs ih =>
    obtain ⟨job, tick⟩ := e
    obtain ⟨hfresh, hnodup⟩ := List.nodup_cons.mp hnodup
    obtain ⟨hresult, hafter⟩ := popOne_spec (hwalk (job, tick) List.mem_cons_self)
    have hother : ∀ j ≠ job, SameAt s (s.pop job (W job).1 (W job).2) j := fun j hj => pop_other hj
    obtain ⟨ihresult, ihin, ihout⟩ := ih (s := s.pop job (W job).1 (W job).2) hnodup fun e he => by
      have hmem : e.1 ∈ jobs.map Prod.fst := List.mem_map_of_mem he
      have hne : e.1 ≠ job := fun heq => hfresh (heq ▸ hmem)
      rw [walk_congr (hother _ hne).plans (hother _ hne).owed]
      exact hwalk e (List.mem_cons_of_mem _ he)
    unfold popEach
    simp only [result_bind, after_bind, hresult, hafter, ihresult, result_pure, after_pure]
    refine ⟨?_, fun j hj => ?_, fun j hj => ?_⟩
    · cases hrest : (W job).2 with
      | none => simp [hrest]
      | some rest => simp [hrest]
    · rcases List.mem_cons.mp hj with rfl | hj
      · exact pop_stepped.congr .refl (ihout j hfresh)
      · exact (ihin j hj).congr (hother j fun heq => hfresh (heq ▸ hj)) .refl
    · obtain ⟨hne, hj⟩ := not_or.mp (mt List.mem_cons.mpr hj)
      exact (hother j hne).trans (ihout j hj)

theorem get?_eraseAll {υ : Type} {jobs : List String} {d : Dict String υ} :
    (jobs.foldl (fun d job => d.erase job) d).get? j = if j ∈ jobs then none else d.get? j := by
  induction jobs generalizing d with
  | nil => simp
  | cons job jobs ih =>
    rw [List.foldl_cons, ih, Dict.get?_erase]
    by_cases hmem : j ∈ jobs
    · simp [hmem]
    · simp [hmem]

/-- Popping consumes of each job what its walk reads, and leaves what it leaves. -/
theorem popDue_spec {W : String → List Instant × Option Instant}
    (hwalk : ∀ j, s.pendingUntil j upto = .ok (W j)) :
    (popDue upto).result s = .ok (((s.next.entries.flatMap fun e => (W e.1).1.map (·, e.1)).mergeSort
        eventLe).map fun e => { at_utc := e.1, kind := "STARTJOB", job := e.2 }) ∧
      ∀ j, Popped s ((popDue upto).after s) j (W j).1 (W j).2 := by
  have hentries : ∀ e ∈ s.next.entries,
      s.walk e.1 upto (turns upto (some e.2)) (some e.2) = .ok (W e.1) := by
    intro e he
    have hnext : s.next.get? e.1 = some e.2 := Dict.get?_eq_some.mpr he
    rw [← hnext]
    exact hwalk e.1
  obtain ⟨hresult, hin, hout⟩ := popEach_spec s.next.nodup hentries
  unfold popDue
  simp only [result_bind, after_bind, result_get, after_get, result_modify, after_modify, hresult,
    result_pure, after_pure, true_and]
  intro j
  by_cases hmem : j ∈ s.next.entries.map Prod.fst
  · have hj := hin j hmem
    refine ⟨hj.plans, ?_, hj.consumed, hj.owed⟩
    rw [get?_eraseAll]
    cases hrest : (W j).2 with
    | none =>
      rw [if_pos]
      obtain ⟨e, he, rfl⟩ := List.mem_map.mp hmem
      exact List.mem_map_of_mem (List.mem_filter.mpr ⟨he, by rw [hrest]; rfl⟩)
    | some t =>
      rw [if_neg]
      · rw [hj.next, hrest, Option.some_or]
      · intro hended
        obtain ⟨e, he, rfl⟩ := List.mem_map.mp hended
        have hnone := (List.mem_filter.mp he).2
        rw [hrest] at hnone
        cases hnone
  · have hj := hout j hmem
    have hnone : s.next.get? j = none := Dict.get?_eq_none.mpr hmem
    have hempty : W j = ([], none) := by
      have hread := hwalk j
      rw [pendingUntil, hnone] at hread
      exact (Except.ok.inj hread).symm
    rw [hempty]
    refine ⟨hj.plans, ?_, hj.consumed, ?_⟩
    · rw [get?_eraseAll, hj.next, hnone]
      split
      · rfl
      · rfl
    · rw [hj.owed]
      simp [finishes]

end Scheduler

end Dsl41.Timing
