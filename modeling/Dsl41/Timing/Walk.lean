import Dsl41.Timing.Timeline

/-!
# Consuming a job's ticks

What a walk up to an instant reads, and what it leaves of a job's entries in the maps.
-/

namespace Dsl41.Timing

open Infra

namespace Scheduler

variable {Z : Zones} {s s' : Scheduler Z} {job : String} {t u now upto : Instant}
  {backlog ticks : List Instant} {first rest : Option Instant} {start : Instant}

/-- Two schedulers with one job's entries the same. -/
structure SameAt (s s' : Scheduler Z) (job : String) : Prop where
  plans : s'.plans.get? job = s.plans.get? job
  next : s'.next.get? job = s.next.get? job
  consumed : s'.consumed.get? job = s.consumed.get? job
  owed : s'.owed.get? job = s.owed.get? job

theorem SameAt.refl : SameAt s s job := ⟨rfl, rfl, rfl, rfl⟩

theorem SameAt.trans {s'' : Scheduler Z} (h : SameAt s s' job) (h' : SameAt s' s'' job) :
    SameAt s s'' job :=
  ⟨h'.plans.trans h.plans, h'.next.trans h.next, h'.consumed.trans h.consumed, h'.owed.trans h.owed⟩

theorem following_congr (hplans : s'.plans.get? job = s.plans.get? job)
    (howed : s'.owed.get? job = s.owed.get? job) : s'.following job t = s.following job t := by
  rw [following, following, hplans, howed]

theorem after_congr (hplans : s'.plans.get? job = s.plans.get? job)
    (howed : s'.owed.get? job = s.owed.get? job) : s'.after job = s.after job := by
  funext t
  rw [after, after, following_congr hplans howed]

theorem walk_congr (hplans : s'.plans.get? job = s.plans.get? job)
    (howed : s'.owed.get? job = s.owed.get? job) {n : Nat} :
    s'.walk job upto n first = s.walk job upto n first := by
  induction n generalizing first with
  | zero =>
    cases first with
    | none => rfl
    | some t => rfl
  | succ n ih =>
    cases first with
    | none => rfl
    | some t =>
      rw [walk, walk, following_congr hplans howed]
      simp only [ih]

theorem SameAt.pending (h : SameAt s s' job) : s'.Pending job = s.Pending job := by
  funext u
  rw [Pending, Pending, after_congr h.plans h.owed, h.next]

theorem SameAt.sound (h : SameAt s s' job) (hs : s.Sound job) : s'.Sound job where
  plan := by
    rw [h.owed, h.next, h.plans]
    exact hs.plan
  owed := by
    rw [h.owed, h.next]
    exact hs.owed
  consumed := by
    rw [h.consumed, h.next]
    exact hs.consumed

theorem exists_getLast {l : List Instant} (h : t ∈ l) : ∃ last, l.getLast? = some last :=
  ⟨_, List.getLast?_eq_some_getLast (List.ne_nil_of_mem h)⟩

/-- The last of an ascending list is its greatest. -/
theorem le_getLast {l : List Instant} (hl : l.Pairwise (· < ·)) (hlast : l.getLast? = some t)
    (hu : u ∈ l) : u ≤ t := by
  obtain ⟨front, rfl⟩ := List.getLast?_eq_some_iff.mp hlast
  rcases List.mem_append.mp hu with hu | hu
  · exact ((List.pairwise_append.mp hl).2.2 u hu t List.mem_cons_self).le
  · exact (List.mem_singleton.mp hu).le

/-! ## The walk -/

/-- The ticks up to an instant, in order, and what is left after it. -/
structure Walked (s : Scheduler Z) (job : String) (upto : Instant) (first : Option Instant)
    (ticks : List Instant) (rest : Option Instant) : Prop where
  sorted : ticks.Pairwise (· < ·)
  due : ∀ u, u ∈ ticks ↔ Chain (s.after job) first u ∧ u ≤ upto
  left : ∀ u, Chain (s.after job) rest u ↔ Chain (s.after job) first u ∧ upto < u

/-- A walk that starts after its instant reads nothing. -/
theorem Walked.ahead (h : ∀ t ∈ first, upto < t) : Walked s job upto first [] first where
  sorted := .nil
  due u := by
    refine ⟨fun hu => absurd hu List.not_mem_nil, ?_⟩
    rintro ⟨hu, hle⟩
    cases first with
    | none => exact absurd hu not_chain_none
    | some t => exact absurd (hu.le after_advances t rfl) (not_le.mpr (lt_of_le_of_lt hle (h t rfl)))
  left u := by
    refine ⟨fun hu => ⟨hu, ?_⟩, And.left⟩
    cases first with
    | none => exact absurd hu not_chain_none
    | some t => exact lt_of_lt_of_le (h t rfl) (hu.le after_advances t rfl)

theorem Walked.cons (h : Walked s job upto (s.after job t) ticks rest) (ht : t ≤ upto) :
    Walked s job upto (some t) (t :: ticks) rest where
  sorted := List.pairwise_cons.mpr ⟨fun u hu => ((h.due u).mp hu).1.lt after_advances, h.sorted⟩
  due u := by
    rw [List.mem_cons, h.due, chain_some]
    constructor
    · rintro (rfl | ⟨hu, hle⟩)
      · exact ⟨Or.inl rfl, ht⟩
      · exact ⟨Or.inr hu, hle⟩
    · rintro ⟨rfl | hu, hle⟩
      · exact Or.inl rfl
      · exact Or.inr ⟨hu, hle⟩
  left u := by
    rw [h.left, chain_some]
    constructor
    · exact fun hu => ⟨Or.inr hu.1, hu.2⟩
    · rintro ⟨rfl | hu, hlt⟩
      · exact absurd ht (not_le.mpr hlt)
      · exact ⟨hu, hlt⟩

/-- The turns from a later tick are fewer. -/
theorem turns_lt {n : Nat} (hturns : turns upto (some t) ≤ n + 1) (hafter : ∀ u ∈ first, t < u) :
    turns upto first ≤ n := by
  cases first with
  | none => exact Nat.zero_le n
  | some u =>
    have hlt : t < u := hafter u rfl
    have hstep : ∀ a b c : Int, a < b → (c - a + 1).toNat ≤ n + 1 → (c - b + 1).toNat ≤ n := by omega
    exact hstep t u upto hlt hturns

/-- A walk with a turn for each instant reads every tick up to its last. -/
theorem walk_spec {n : Nat} (hturns : turns upto first ≤ n)
    (h : s.walk job upto n first = .ok (ticks, rest)) : Walked s job upto first ticks rest := by
  induction n generalizing first ticks with
  | zero =>
    cases first with
    | none =>
      cases h
      exact .ahead (by simp)
    | some t =>
      cases h
      refine .ahead ?_
      rintro _ ⟨⟩
      have hnone : ∀ a c : Int, (c - a + 1).toNat ≤ 0 → c < a := by omega
      exact hnone t upto hturns
  | succ n ih =>
    cases first with
    | none =>
      cases h
      exact .ahead (by simp)
    | some t =>
      rw [walk] at h
      split at h
      · next hle =>
        obtain ⟨following, hfollowing, h⟩ := bind_eq_ok.mp h
        obtain ⟨⟨found, left⟩, hwalk, h⟩ := bind_eq_ok.mp h
        cases h
        have hafter : s.after job t = following := by
          rw [after, hfollowing]
          rfl
        refine .cons ?_ hle
        rw [hafter]
        exact ih (turns_lt hturns fun u hu => after_advances t u (hafter.trans hu)) hwalk
      · next hgt =>
        cases h
        refine .ahead ?_
        rintro _ ⟨⟩
        exact not_le.mp hgt

/-! ## A job's entries after its walk -/

theorem pending_head (h : s.Pending job u) : ∃ t, s.next.get? job = some t ∧ t ≤ u := by
  rw [Pending] at h
  cases hnext : s.next.get? job with
  | none =>
    rw [hnext] at h
    exact absurd h not_chain_none
  | some t =>
    rw [hnext] at h
    exact ⟨t, rfl, h.le after_advances t rfl⟩

/-- What is pending comes after what was consumed. -/
theorem Sound.fresh (hs : s.Sound job) (hu : s.Pending job u) : ∀ c ∈ s.consumed.get? job, c < u := by
  intro c hc
  obtain ⟨t, ht, hle⟩ := pending_head hu
  exact (hs.consumed c t hc ht).trans_le hle

/-- The pending ticks, where some are owed. -/
theorem pending_owed (hs : s.Sound job) (howed : s.owed.get? job = some (backlog, start, true)) :
    s.Pending job u ↔ u ∈ backlog ∧ (∃ t ∈ s.next.get? job, t ≤ u) ∨
      TicksOf (s.plans.get? job) (start, decide (start ∉ backlog)) u := by
  obtain ⟨-, hsorted, hle, t, ht, hnext⟩ := hs.owed _ _ _ howed
  rw [Pending, hnext, chain_owed howed hsorted hle ht]
  simp

theorem TicksOf.start_le {plan : Option (SchedulePlan Z)} {inclusive : Bool}
    (h : TicksOf plan (start, inclusive) u) : start ≤ u := by
  obtain ⟨p, -, hp⟩ := h
  rcases hp.after with hlt | ⟨-, heq⟩
  · exact hlt.le
  · exact heq.ge

/-- Whether the ticks reach the last of the owed ones. -/
def finishes (owed : Option (List Instant × Instant × Bool)) (ticks : List Instant) : Bool :=
  owed.any fun o => o.1.getLast?.any fun final => ticks.getLast?.any fun last => decide (final ≤ last)

/-- One job's entries after its walk. -/
structure Popped (s s' : Scheduler Z) (job : String) (ticks : List Instant) (rest : Option Instant) :
    Prop where
  plans : s'.plans.get? job = s.plans.get? job
  next : s'.next.get? job = rest
  consumed : s'.consumed.get? job = ticks.getLast?.or (s.consumed.get? job)
  owed : s'.owed.get? job = if finishes (s.owed.get? job) ticks then none else s.owed.get? job

theorem Walked.last_le (hw : Walked s job upto first ticks rest) : ∀ last ∈ ticks.getLast?, last ≤ upto :=
  fun last h => ((hw.due last).mp (List.mem_of_getLast? h)).2

theorem Walked.rest_later (hw : Walked s job upto first ticks rest) (ht : rest = some t) :
    Chain (s.after job) first t ∧ upto < t := (hw.left t).mp (ht ▸ .here t)

/-- The owed ticks are all consumed where the last of them is due. -/
theorem finishes_iff (hs : s.Sound job) (hw : Walked s job upto (s.next.get? job) ticks rest)
    (howed : s.owed.get? job = some (backlog, start, true)) :
    finishes (s.owed.get? job) ticks = true ↔ ∀ o ∈ backlog, o ≤ upto := by
  obtain ⟨-, hsorted, hle, t, ht, hnext⟩ := hs.owed _ _ _ howed
  obtain ⟨final, hfinal⟩ := exists_getLast ht
  have hmem : final ∈ backlog := List.mem_of_getLast? hfinal
  have hlast : ∀ o ∈ backlog, o ≤ final := fun o ho => le_getLast hsorted hfinal ho
  rw [howed, finishes, Option.any_some, hfinal, Option.any_some]
  constructor
  · intro h o ho
    obtain ⟨last, hticks, hreach⟩ := (Option.any_eq_true _ _).mp h
    exact (hlast o ho).trans ((of_decide_eq_true hreach).trans (hw.last_le last hticks))
  · intro h
    have hpending : s.Pending job final := (pending_owed hs howed).mpr (Or.inl ⟨hmem, t, hnext, hlast t ht⟩)
    have hdue : final ∈ ticks := (hw.due final).mpr ⟨hpending, h final hmem⟩
    obtain ⟨last, hticks⟩ := exists_getLast hdue
    rw [hticks]
    exact decide_eq_true (le_getLast hw.sorted hticks hdue)

/-- What a walk leaves pending is what came after its instant. -/
theorem Popped.pending (h : Popped s s' job ticks rest) (hs : s.Sound job)
    (hw : Walked s job upto (s.next.get? job) ticks rest) :
    s'.Pending job u ↔ s.Pending job u ∧ upto < u := by
  have hleft : Chain (s.after job) rest u ↔ s.Pending job u ∧ upto < u := hw.left u
  rw [← hleft, Pending, h.next]
  by_cases hfin : finishes (s.owed.get? job) ticks = true
  · -- the owed ticks are gone, and what is left follows the plan
    have howed' : s'.owed.get? job = none := by rw [h.owed, if_pos hfin]
    obtain ⟨⟨backlog, start, inclusive⟩, howed, -⟩ := (Option.any_eq_true _ _).mp hfin
    obtain ⟨rfl, -, hle, -⟩ := hs.owed _ _ _ howed
    have hupto := (finishes_iff hs hw howed).mp hfin
    refine (chain_congr fun v hv => ?_).symm
    obtain ⟨hpending, hlt⟩ := (hw.left v).mp hv
    rcases (pending_owed hs howed).mp hpending with ⟨hmem, -⟩ | hplan
    · exact absurd (hupto v hmem) (not_le.mpr hlt)
    · have hstart := hplan.start_le
      obtain ⟨p, hp, -⟩ := hplan
      have hnone : backlog.filter (fun o => decide (v < o)) = [] :=
        List.filter_eq_nil_iff.mpr fun o ho => by simpa using (hupto o ho).trans hlt.le
      rw [after_beyond howed hnone hstart, hp, following_free howed' (h.plans.trans hp),
        Option.bind_some]
  · rw [after_congr h.plans (by rw [h.owed, if_neg hfin])]

theorem Popped.sound (h : Popped s s' job ticks rest) (hs : s.Sound job)
    (hw : Walked s job upto (s.next.get? job) ticks rest) : s'.Sound job where
  plan hnone hnext := by
    rw [h.next] at hnext
    rw [h.plans]
    obtain ⟨t, rfl⟩ := Option.ne_none_iff_exists'.mp hnext
    obtain ⟨hpending, hlt⟩ := hw.rest_later rfl
    rw [h.owed] at hnone
    split at hnone
    · next hfin =>
      obtain ⟨⟨backlog, start, inclusive⟩, howed, -⟩ := (Option.any_eq_true _ _).mp hfin
      obtain ⟨rfl, -⟩ := hs.owed _ _ _ howed
      rcases (pending_owed hs howed).mp hpending with ⟨hmem, -⟩ | ⟨p, hp, -⟩
      · exact absurd ((finishes_iff hs hw howed).mp hfin t hmem) (not_le.mpr hlt)
      · rw [hp]
        exact Option.some_ne_none p
    · obtain ⟨first, hfirst, -⟩ := pending_head hpending
      exact hs.plan hnone (by rw [hfirst]; exact Option.some_ne_none first)
  owed backlog start inclusive howed' := by
    rw [h.owed] at howed'
    split at howed'
    · cases howed'
    · next hfin =>
      obtain ⟨rfl, hsorted, hle, t, ht, hnext⟩ := hs.owed _ _ _ howed'
      refine ⟨rfl, hsorted, hle, ?_⟩
      obtain ⟨o, ho, hupto⟩ : ∃ o ∈ backlog, upto < o := by
        have hnot := mt (finishes_iff hs hw howed').mpr hfin
        simpa using hnot
      -- the last owed tick is left, so the next one is owed too
      obtain ⟨final, hfinal⟩ := exists_getLast ht
      have hmem : final ∈ backlog := List.mem_of_getLast? hfinal
      have hpending : s.Pending job final :=
        (pending_owed hs howed').mpr (Or.inl ⟨hmem, t, hnext, le_getLast hsorted hfinal ht⟩)
      have hleft : Chain (s.after job) rest final :=
        (hw.left final).mpr ⟨hpending, hupto.trans_le (le_getLast hsorted hfinal ho)⟩
      cases hrest : rest with
      | none =>
        rw [hrest] at hleft
        exact absurd hleft not_chain_none
      | some r =>
        rw [hrest] at hleft
        have hle' : r ≤ final := hleft.le after_advances r rfl
        refine ⟨r, ?_, h.next.trans hrest⟩
        rcases (pending_owed hs howed').mp (hw.rest_later hrest).1 with ⟨hr, -⟩ | hr
        · exact hr
        · exact le_antisymm hle' ((hle final hmem).trans hr.start_le) ▸ hmem
  consumed c t hc ht := by
    rw [h.next] at ht
    obtain ⟨hpending, hlt⟩ := hw.rest_later ht
    rw [h.consumed] at hc
    cases hlast : ticks.getLast? with
    | none =>
      rw [hlast] at hc
      exact hs.fresh hpending c hc
    | some last =>
      rw [hlast] at hc
      cases hc
      exact (hw.last_le c hlast).trans_lt hlt

end Scheduler

end Dsl41.Timing
