import Dsl41.Infra.Ticks
import Dsl41.Timing.Scheduler

/-!
# The ticks a job has still to fire

The pending ticks of a job are what its next tick reaches. Here is what they are in terms of the
owed ticks and the plan, and what a walk over them reads.
-/

namespace Dsl41.Timing

open Infra

variable {Z : Zones}

/-! ## A plan's ticks -/

namespace SchedulePlan

variable (plan : SchedulePlan Z) {t u : Instant} {start : Instant × Bool}

/-- The occurrence, where the calendars answer. -/
def occ (t : Instant) (inclusive : Bool) : Option Instant := (plan.occurrence t inclusive).toOption.join

/-- The plan's ticks from an instant on, or after it. -/
def Ticks (start : Instant × Bool) : Instant → Prop :=
  Chain (plan.occ · false) (plan.occ start.1 start.2)

variable {plan}

theorem occ_after {inclusive : Bool} (h : plan.occ t inclusive = some u) :
    t < u ∨ inclusive = true ∧ u = t := by
  unfold occ at h
  cases hocc : plan.occurrence t inclusive with
  | error e =>
    rw [hocc] at h
    cases h
  | ok found =>
    rw [hocc] at h
    have hfound : found = some u := h
    exact occurrence_after (hfound ▸ hocc)

theorem occ_advances : Advances (plan.occ · false) := by
  intro t u h
  rcases occ_after h with hlt | ⟨hfalse, -⟩
  · exact hlt
  · cases hfalse

/-- A plan's ticks come at its start or later, and later where the start is exclusive. -/
theorem Ticks.after (h : plan.Ticks start u) : start.1 < u ∨ start.2 = true ∧ u = start.1 := by
  unfold Ticks at h
  cases hocc : plan.occ start.1 start.2 with
  | none =>
    rw [hocc] at h
    exact absurd h not_chain_none
  | some first =>
    rw [hocc] at h
    have hle := h.le occ_advances first rfl
    rcases occ_after hocc with hlt | ⟨hincl, rfl⟩
    · exact Or.inl (lt_of_lt_of_le hlt hle)
    · rcases lt_or_eq_of_le hle with hlt | heq
      · exact Or.inl hlt
      · exact Or.inr ⟨hincl, heq.symm⟩

end SchedulePlan

/-! ## Pending ticks -/

namespace Scheduler

variable {s s' : Scheduler Z} {job : String} {t u now upto : Instant} {backlog ticks : List Instant}
  {start : Instant} {plan : Option (SchedulePlan Z)}

variable (s job) in
/-- The tick after one, where the calendars answer. -/
def after (tick : Instant) : Option Instant := (s.following job tick).toOption.join

variable (s job) in
/-- The ticks a job has still to fire. -/
def Pending : Instant → Prop := Chain (s.after job) (s.next.get? job)

/-- The ticks of a plan, or none. -/
def TicksOf (plan : Option (SchedulePlan Z)) (start : Instant × Bool) (u : Instant) : Prop :=
  ∃ p ∈ plan, p.Ticks start u

theorem following_free (howed : s.owed.get? job = none) {p : SchedulePlan Z}
    (hplan : s.plans.get? job = some p) : s.after job t = p.occ t false := by
  rw [after, following, howed, hplan]
  rfl

theorem following_later (howed : s.owed.get? job = some (backlog, start, true)) {later : List Instant}
    (hlater : backlog.filter (fun o => decide (t < o)) = u :: later) : s.after job t = some u := by
  rw [after, following, howed]
  dsimp only
  rw [hlater]
  rfl

theorem following_last (howed : s.owed.get? job = some (backlog, start, true))
    (hlater : backlog.filter (fun o => decide (t < o)) = []) :
    s.after job t = (s.plans.get? job).bind fun p => if t < start then p.occ start true else p.occ t false := by
  rw [after, following, howed]
  dsimp only
  rw [hlater]
  cases s.plans.get? job with
  | none => rfl
  | some p =>
    dsimp only [Option.bind_some]
    split
    · rfl
    · rfl

theorem after_advances : Advances (s.after job) := by
  intro t u h
  unfold after following at h
  split at h
  · split at h
    · cases h
    · exact SchedulePlan.occ_advances t u h
  · next backlog start inclusive _ =>
    split at h
    · next later rest hfilter =>
      cases h
      have hmem : u ∈ backlog.filter fun o => decide (t < o) := hfilter ▸ List.mem_cons_self
      exact of_decide_eq_true (List.mem_filter.mp hmem).2
    · split at h
      · cases h
      · next p _ =>
        split at h
        · next hlt =>
          rcases SchedulePlan.occ_after h with hafter | ⟨-, rfl⟩
          · exact hlt.trans hafter
          · exact hlt
        · exact SchedulePlan.occ_advances t u h

/-- What one job's entries in the four maps look like between calls. -/
structure Sound (s : Scheduler Z) (job : String) : Prop where
  plan : s.owed.get? job = none → s.next.get? job ≠ none → s.plans.get? job ≠ none
  owed : ∀ backlog start inclusive, s.owed.get? job = some (backlog, start, inclusive) →
    inclusive = true ∧ backlog.Pairwise (· < ·) ∧ (∀ o ∈ backlog, o ≤ start) ∧
      ∃ t ∈ backlog, s.next.get? job = some t
  consumed : ∀ c t, s.consumed.get? job = some c → s.next.get? job = some t → c < t

/-- Without owed ticks the pending ones are the plan's from the next on. -/
theorem pending_free (hs : s.Sound job) (howed : s.owed.get? job = none) :
    s.Pending job u ↔ ∃ t ∈ s.next.get? job, u = t ∨ TicksOf (s.plans.get? job) (t, false) u := by
  cases hnext : s.next.get? job with
  | none =>
    rw [Pending, hnext]
    simp
  | some t =>
    obtain ⟨p, hplan⟩ := Option.ne_none_iff_exists'.mp (hs.plan howed (by rw [hnext]; exact Option.some_ne_none t))
    rw [Pending, hnext, chain_some,
      chain_congr (fun v _ => following_free howed hplan),
      following_free howed hplan, hplan]
    simp [TicksOf, SchedulePlan.Ticks]

/-- After a plan's start, with no owed tick left, the plan is followed. -/
theorem after_beyond (howed : s.owed.get? job = some (backlog, start, true))
    (hlater : backlog.filter (fun o => decide (t < o)) = []) (hstart : start ≤ t) :
    s.after job t = (s.plans.get? job).bind (·.occ t false) := by
  rw [following_last howed hlater]
  simp only [if_neg (not_lt.mpr hstart)]

theorem chain_plan {p : SchedulePlan Z} {first : Option Instant} (hplan : s.plans.get? job = some p)
    (hafter : ∀ v, Chain (s.after job) first v → s.after job v = (s.plans.get? job).bind (·.occ v false)) :
    Chain (s.after job) first u ↔ Chain (p.occ · false) first u :=
  chain_congr fun v hv => by rw [hafter v hv, hplan, Option.bind_some]

/-- From the last owed tick on come the plan's: from its start, or after it where the start is
that tick. -/
theorem chain_last (howed : s.owed.get? job = some (backlog, start, true))
    (hle : ∀ o ∈ backlog, o ≤ start) (ht : t ∈ backlog) (hlast : ∀ o ∈ backlog, o ≤ t) :
    Chain (s.after job) (s.after job t) u ↔
      TicksOf (s.plans.get? job) (start, decide (start ∉ backlog)) u := by
  have hnone : ∀ v, t ≤ v → backlog.filter (fun o => decide (v < o)) = [] := fun v hv =>
    List.filter_eq_nil_iff.mpr fun o ho => by simpa using (hlast o ho).trans hv
  rw [following_last howed (hnone t le_rfl)]
  cases hplan : s.plans.get? job with
  | none => simp [TicksOf]
  | some p =>
    have hend : (if t < start then p.occ start true else p.occ t false) =
        p.occ start (decide (start ∉ backlog)) := by
      split
      · next hlt =>
        have hnot : start ∉ backlog := fun h => absurd (hlast start h) (not_le.mpr hlt)
        rw [decide_eq_true hnot]
      · next hge =>
        obtain rfl : t = start := le_antisymm (hle t ht) (not_lt.mp hge)
        rw [decide_eq_false (not_not.mpr ht)]
    rw [Option.bind_some, hend, chain_plan hplan]
    · simp [TicksOf, SchedulePlan.Ticks]
    · intro v hv
      have hstart : start ≤ v := by
        cases hocc : p.occ start (decide (start ∉ backlog)) with
        | none =>
          rw [hocc] at hv
          exact absurd hv not_chain_none
        | some first =>
          rw [hocc] at hv
          have hfirst := hv.le after_advances first rfl
          rcases SchedulePlan.occ_after hocc with hlt | ⟨-, rfl⟩
          · exact hlt.le.trans hfirst
          · exact hfirst
      exact after_beyond howed (hnone v ((hle t ht).trans hstart)) hstart

/-- With owed ticks, the pending ones from one of them on are the owed ones and then the plan's:
from its start, or after it where the start itself is owed. -/
theorem chain_owed (howed : s.owed.get? job = some (backlog, start, true))
    (hsorted : backlog.Pairwise (· < ·)) (hle : ∀ o ∈ backlog, o ≤ start) (ht : t ∈ backlog) :
    Chain (s.after job) (some t) u ↔
      u ∈ backlog ∧ t ≤ u ∨ TicksOf (s.plans.get? job) (start, decide (start ∉ backlog)) u := by
  -- induction on the owed ticks after this one
  generalize hlater : backlog.filter (fun o => decide (t < o)) = later
  induction later generalizing t with
  | nil =>
    have hlast : ∀ o ∈ backlog, o ≤ t := by
      intro o ho
      simpa using List.filter_eq_nil_iff.mp hlater o ho
    have hhere : u ∈ backlog ∧ t ≤ u ↔ u = t := by
      constructor
      · exact fun h => le_antisymm (hlast u h.1) h.2
      · rintro rfl
        exact ⟨ht, le_rfl⟩
    rw [chain_some, hhere, chain_last howed hle ht hlast]
  | cons next later ih =>
    have hmem : next ∈ backlog ∧ t < next := by
      have hnext : next ∈ backlog.filter fun o => decide (t < o) := hlater ▸ List.mem_cons_self
      simpa using hnext
    have hfilter : (next :: later).Pairwise (· < ·) := hlater ▸ hsorted.filter _
    -- what comes after the next owed tick is the rest
    have hrest : backlog.filter (fun o => decide (next < o)) = later := by
      have hstep : backlog.filter (fun o => decide (next < o)) =
          (backlog.filter fun o => decide (t < o)).filter fun o => decide (next < o) := by
        rw [List.filter_filter]
        refine List.filter_congr fun o _ => ?_
        have himp : next < o → t < o := hmem.2.trans
        simpa using himp
      rw [hstep, hlater, List.filter_cons_of_neg (by simp)]
      exact List.filter_eq_self.mpr fun o ho => decide_eq_true ((List.pairwise_cons.mp hfilter).1 o ho)
    rw [chain_some, following_later howed hlater, ih hmem.1 hrest, ← or_assoc]
    refine or_congr_left ?_
    constructor
    · rintro (rfl | ⟨hu, hle⟩)
      · exact ⟨ht, le_rfl⟩
      · exact ⟨hu, hmem.2.le.trans hle⟩
    · rintro ⟨hu, htu⟩
      rcases eq_or_lt_of_le htu with rfl | hlt
      · exact Or.inl rfl
      · refine Or.inr ⟨hu, ?_⟩
        have hin : u ∈ next :: later := hlater ▸ List.mem_filter.mpr ⟨hu, decide_eq_true hlt⟩
        rcases List.mem_cons.mp hin with rfl | hin
        · exact le_rfl
        · exact ((List.pairwise_cons.mp hfilter).1 u hin).le

end Scheduler

end Dsl41.Timing
