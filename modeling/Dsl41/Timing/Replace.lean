import Dsl41.Timing.Walk

/-!
# Following an update

Where nothing refuses, an update leaves of a rebuilt job what its old plan owes and its new plan
brings, of a removed job nothing, and of every other job what it was.
-/

namespace Dsl41.Timing

open Infra Infra.Effect

namespace Scheduler

variable {Z : Zones} {s s' : Scheduler Z} {job j : String} {t u now : Instant}
  {owed : Dict String (List Instant)} {backlog ticks : List Instant} {rest : Option Instant}
  {plan : Option (SchedulePlan Z)}

/-! ## Dropping -/

/-- A job's plan, next tick and owed ticks are gone. -/
structure Dropped (s s' : Scheduler Z) (job : String) : Prop where
  plans : s'.plans.get? job = none
  next : s'.next.get? job = none
  consumed : s'.consumed.get? job = s.consumed.get? job
  owed : s'.owed.get? job = none

theorem dropAll_spec {jobs : List String} :
    (j ∈ jobs → Dropped s (jobs.foldl drop s) j) ∧ (j ∉ jobs → SameAt s (jobs.foldl drop s) j) := by
  induction jobs generalizing s with
  | nil => exact ⟨fun h => absurd h List.not_mem_nil, fun _ => .refl⟩
  | cons job jobs ih =>
    obtain ⟨ihin, ihout⟩ := ih (s := s.drop job)
    have hother : j ≠ job → SameAt s (s.drop job) j := fun hne =>
      ⟨Dict.get?_erase.trans (if_neg hne), Dict.get?_erase.trans (if_neg hne), rfl,
        Dict.get?_erase.trans (if_neg hne)⟩
    constructor
    · intro hj
      by_cases hmem : j ∈ jobs
      · have h := ihin hmem
        exact ⟨h.plans, h.next, h.consumed, h.owed⟩
      · obtain rfl : j = job := (List.mem_cons.mp hj).resolve_right hmem
        have h := ihout hmem
        exact ⟨h.plans.trans (Dict.get?_erase.trans (if_pos rfl)),
          h.next.trans (Dict.get?_erase.trans (if_pos rfl)), h.consumed,
          h.owed.trans (Dict.get?_erase.trans (if_pos rfl))⟩
    · intro hj
      obtain ⟨hne, hmem⟩ := not_or.mp (mt List.mem_cons.mpr hj)
      exact (hother hne).trans (ihout hmem)

/-! ## Installing -/

/-- One rebuilt job's entries: the ticks its old plan owes, and its new plan. -/
structure Installed (s s' : Scheduler Z) (job : String) (now : Instant) (backlog : List Instant)
    (plan : Option (SchedulePlan Z)) : Prop where
  plans : s'.plans.get? job = plan
  next : s'.next.get? job =
    backlog.head?.or (plan.bind fun p => p.occ (s.startOf job now).1 (s.startOf job now).2)
  consumed : s'.consumed.get? job = s.consumed.get? job
  owed : s'.owed.get? job = if backlog = [] then none else some (backlog, s.startOf job now)

/-- The plan answers for its first tick, where nothing is owed. -/
def Starts (s : Scheduler Z) (now : Instant) (backlog : List Instant) (job : String)
    (plan : Option (SchedulePlan Z)) : Prop :=
  backlog = [] → ∀ p ∈ plan, ∃ first, p.occurrence (s.startOf job now).1 (s.startOf job now).2 = .ok first

theorem startOf_congr (now : Instant) (h : s'.consumed.get? job = s.consumed.get? job) :
    s'.startOf job now = s.startOf job now := by
  rw [startOf, startOf, h]

theorem occ_ok {p : SchedulePlan Z} {inclusive : Bool} {first : Option Instant}
    (h : p.occurrence t inclusive = .ok first) : p.occ t inclusive = first := by
  rw [SchedulePlan.occ, h]
  rfl

theorem install_spec (hdropped : Dropped s s job)
    (hstarts : s.Starts now ((owed.get? job).getD []) job plan) :
    (install now owed job plan).result s = .ok () ∧
      Installed s ((install now owed job plan).after s) job now ((owed.get? job).getD []) plan ∧
      ∀ j ≠ job, SameAt s ((install now owed job plan).after s) j := by
  unfold install
  simp only [result_bind, after_bind, result_get, after_get]
  generalize hbacklog : (owed.get? job).getD [] = backlog at hstarts
  cases backlog with
  | cons first later =>
    cases plan with
    | none =>
      exact ⟨rfl, ⟨hdropped.plans, Dict.get?_set_self, rfl, Dict.get?_set_self⟩,
        fun j hj => ⟨rfl, Dict.get?_set_ne hj, rfl, Dict.get?_set_ne hj⟩⟩
    | some p =>
      exact ⟨rfl, ⟨Dict.get?_set_self, Dict.get?_set_self, rfl, Dict.get?_set_self⟩,
        fun j hj => ⟨Dict.get?_set_ne hj, Dict.get?_set_ne hj, rfl, Dict.get?_set_ne hj⟩⟩
  | nil =>
    cases plan with
    | none => exact ⟨rfl, ⟨hdropped.plans, hdropped.next, rfl, hdropped.owed⟩, fun j _ => .refl⟩
    | some p =>
      obtain ⟨found, hfound⟩ := hstarts rfl p rfl
      have hocc := occ_ok hfound
      simp only [result_modify, after_modify, result_bind, after_bind, result_ofExcept, after_ofExcept, hfound]
      cases found with
      | none =>
        exact ⟨rfl, ⟨Dict.get?_set_self, hdropped.next.trans hocc.symm, rfl, hdropped.owed⟩,
          fun j hj => ⟨Dict.get?_set_ne hj, rfl, rfl, rfl⟩⟩
      | some tick =>
        exact ⟨rfl, ⟨Dict.get?_set_self, Dict.get?_set_self.trans hocc.symm, rfl, hdropped.owed⟩,
          fun j hj => ⟨Dict.get?_set_ne hj, Dict.get?_set_ne hj, rfl, rfl⟩⟩

theorem installAll_spec (now : Instant) (owed : Dict String (List Instant))
    {plans : List (String × Option (SchedulePlan Z))}
    (hnodup : (plans.map Prod.fst).Nodup) (hdropped : ∀ e ∈ plans, Dropped s s e.1)
    (hstarts : ∀ e ∈ plans, s.Starts now ((owed.get? e.1).getD []) e.1 e.2) :
    (installAll now owed plans).result s = .ok () ∧
      (∀ e ∈ plans, Installed s ((installAll now owed plans).after s) e.1 now
        ((owed.get? e.1).getD []) e.2) ∧
      ∀ j ∉ plans.map Prod.fst, SameAt s ((installAll now owed plans).after s) j := by
  -- induction on the plans still to install
  induction plans generalizing s with
  | nil => exact ⟨rfl, fun e he => absurd he List.not_mem_nil, fun j _ => .refl⟩
  | cons e plans ih =>
    obtain ⟨job, plan⟩ := e
    obtain ⟨hfresh, hnodup⟩ := List.nodup_cons.mp hnodup
    obtain ⟨hresult, hself, hother⟩ :=
      install_spec (hdropped (job, plan) List.mem_cons_self) (hstarts (job, plan) List.mem_cons_self)
    have hne : ∀ e ∈ plans, e.1 ≠ job := by
      intro e he heq
      have hmem : e.1 ∈ plans.map Prod.fst := List.mem_map_of_mem he
      exact hfresh (heq ▸ hmem)
    have hsame : ∀ e ∈ plans, SameAt s ((install now owed job plan).after s) e.1 := fun e he =>
      hother e.1 (hne e he)
    obtain ⟨ihresult, ihin, ihout⟩ := ih hnodup
      (fun e he => by
        have h := hdropped e (List.mem_cons_of_mem _ he)
        exact ⟨(hsame e he).plans.trans h.plans, (hsame e he).next.trans h.next, rfl,
          (hsame e he).owed.trans h.owed⟩)
      (fun e he => by
        rw [Starts, startOf_congr now (hsame e he).consumed]
        exact hstarts e (List.mem_cons_of_mem _ he))
    unfold installAll
    simp only [result_bind, after_bind, hresult]
    refine ⟨ihresult, fun e he => ?_, fun j hj => ?_⟩
    · rcases List.mem_cons.mp he with rfl | he
      · have h := ihout job hfresh
        exact ⟨h.plans.trans hself.plans, h.next.trans hself.next, h.consumed.trans hself.consumed,
          h.owed.trans hself.owed⟩
      · have h := ihin e he
        have hstart := startOf_congr now (hsame e he).consumed
        exact ⟨h.plans, hstart ▸ h.next, h.consumed.trans (hsame e he).consumed, hstart ▸ h.owed⟩
    · obtain ⟨hne, hj⟩ := not_or.mp (mt List.mem_cons.mpr hj)
      exact (hother j hne).trans (ihout j hj)

/-! ## Owed ticks and the new plan -/

/-- Where a new plan starts, beside what its job has consumed and still owes. -/
def startBeside (consumed : Option Instant) (now : Instant) (owes : Bool) : Instant × Bool :=
  match consumed with
  | some seen => if now ≤ seen then (seen, false) else (now, !owes)
  | none => (now, !owes)

theorem startBeside_false : startBeside (s.consumed.get? job) now false = s.startOf job now := by
  unfold startBeside startOf
  cases s.consumed.get? job with
  | none => rfl
  | some seen => rfl

/-- A job that owes ticks up to the instant has consumed none at or after it. -/
theorem start_of_owed {t : Instant} {owes : Bool} (hfresh : ∀ c ∈ s.consumed.get? job, c < t) (ht : t ≤ now) :
    startBeside (s.consumed.get? job) now owes = (now, !owes) := by
  unfold startBeside
  cases hseen : s.consumed.get? job with
  | none => rfl
  | some seen => exact if_neg (not_le.mpr ((hfresh seen hseen).trans_le ht))

theorem Installed.pending (h : Installed s s' job now ticks plan) (hsorted : ticks.Pairwise (· < ·))
    (hdue : ∀ t ∈ ticks, t ≤ now) (hfresh : ∀ t ∈ ticks, ∀ c ∈ s.consumed.get? job, c < t) :
    s'.Pending job u ↔ u ∈ ticks ∨
      TicksOf plan (startBeside (s.consumed.get? job) now (decide (now ∈ ticks))) u := by
  cases ticks with
  | nil =>
    have howed : s'.owed.get? job = none := h.owed
    simp only [List.not_mem_nil, false_or, decide_false, startBeside_false]
    rw [Pending, h.next, List.head?_nil, Option.none_or]
    cases plan with
    | none => simp [TicksOf]
    | some p =>
      rw [Option.bind_some, chain_congr fun v _ => following_free howed h.plans]
      simp [TicksOf, SchedulePlan.Ticks]
  | cons first later =>
    have hmem : first ∈ first :: later := List.mem_cons_self
    have hstart : s.startOf job now = (now, true) := by
      rw [← startBeside_false, start_of_owed (hfresh first hmem) (hdue first hmem)]
      rfl
    have howed : s'.owed.get? job = some (first :: later, now, true) := by
      rw [h.owed, if_neg (List.cons_ne_nil _ _), hstart]
    rw [Pending, h.next, List.head?_cons, Option.some_or, chain_owed howed hsorted hdue hmem, h.plans,
      start_of_owed (hfresh first hmem) (hdue first hmem)]
    have hfirst : u ∈ first :: later → first ≤ u := by
      intro hu
      rcases List.mem_cons.mp hu with rfl | hu
      · exact le_rfl
      · exact ((List.pairwise_cons.mp hsorted).1 u hu).le
    rw [and_iff_left_of_imp hfirst, decide_not]

theorem Installed.sound (h : Installed s s' job now ticks plan) (hsorted : ticks.Pairwise (· < ·))
    (hdue : ∀ t ∈ ticks, t ≤ now) (hfresh : ∀ t ∈ ticks, ∀ c ∈ s.consumed.get? job, c < t) :
    s'.Sound job where
  plan howed hnext := by
    rw [h.plans]
    rw [h.owed] at howed
    split at howed
    · next hnil =>
      rw [h.next, hnil, List.head?_nil, Option.none_or] at hnext
      cases plan with
      | none => exact absurd rfl hnext
      | some p => exact Option.some_ne_none p
    · cases howed
  owed backlog start inclusive howed := by
    rw [h.owed] at howed
    split at howed
    · cases howed
    · next hne =>
      obtain ⟨first, later, rfl⟩ := List.exists_cons_of_ne_nil hne
      have hmem : first ∈ first :: later := List.mem_cons_self
      have hstart : s.startOf job now = (now, true) := by
        rw [← startBeside_false, start_of_owed (hfresh first hmem) (hdue first hmem)]
        rfl
      rw [hstart] at howed
      cases howed
      refine ⟨rfl, hsorted, hdue, first, hmem, ?_⟩
      rw [h.next, List.head?_cons, Option.some_or]
  consumed c t hc ht := by
    rw [h.consumed] at hc
    rw [h.next] at ht
    cases ticks with
    | cons first later =>
      cases ht
      exact hfresh t List.mem_cons_self c hc
    | nil =>
      rw [List.head?_nil, Option.none_or] at ht
      obtain ⟨p, -, hocc⟩ := Option.bind_eq_some_iff.mp ht
      rw [startOf, hc] at hocc
      by_cases hseen : now ≤ c
      · simp only [if_pos hseen] at hocc
        exact (SchedulePlan.occ_after hocc).elim id fun h => nomatch h.1
      · simp only [if_neg hseen] at hocc
        have hlt : c < now := not_le.mp hseen
        exact (SchedulePlan.occ_after hocc).elim hlt.trans fun h => h.2 ▸ hlt

/-! ## The update -/

theorem get?_setAll {υ : Type} {f : String → υ} {entries : List (String × υ)}
    (h : ∀ e ∈ entries, e.2 = f e.1) :
    (setAll entries).get? j = if j ∈ entries.map Prod.fst then some (f j) else none := by
  -- generalised over what is already set
  have hfold : ∀ (entries : List (String × υ)) (d : Dict String υ), (∀ e ∈ entries, e.2 = f e.1) →
      (entries.foldl (fun held e => held.set e.1 e.2) d).get? j =
        if j ∈ entries.map Prod.fst then some (f j) else d.get? j := by
    intro entries
    induction entries with
    | nil => intro d _; simp
    | cons e entries ih =>
      intro d h
      rw [List.foldl_cons, ih _ fun e he => h e (List.mem_cons_of_mem _ he), Dict.get?_set,
        h e List.mem_cons_self]
      by_cases hmem : j ∈ entries.map Prod.fst
      · have hcons : j ∈ (e :: entries).map Prod.fst := List.mem_cons_of_mem _ hmem
        rw [if_pos hmem, if_pos hcons]
      · rw [if_neg hmem, List.map_cons]
        by_cases heq : j = e.1
        · simp [heq]
        · rw [if_neg heq, if_neg fun h => (List.mem_cons.mp h).elim heq hmem]
  exact hfold entries ∅ h

variable (Z) in
/-- The plan a catalog and its settings give a job. -/
def planOf (catalog : Catalog) (settings : Settings) (job : String) : Option (SchedulePlan Z) :=
  (do compile catalog settings (← baseTz settings) job : Except EngineError _).toOption.join

theorem planOf_eq {catalog : Catalog} {settings : Settings} {base_tz : Option Z.Zone}
    (hbase : baseTz settings = .ok base_tz) (h : compile catalog settings base_tz job = .ok plan) :
    planOf Z catalog settings job = plan := by
  rw [planOf, hbase]
  show (compile catalog settings base_tz job).toOption.join = plan
  rw [h]
  rfl

/-- The refusals of an update are past. -/
structure Update.Accepted (upd : Update) (s : Scheduler Z) : Prop where
  check : upd.check s = .ok ()
  plans : ∃ plans, upd.plans (Z := Z) = .ok plans
  owed : ∃ owed, upd.owed s = .ok owed

/-- What a changed job owes of its old plan. -/
def Update.owes (upd : Update) (s : Scheduler Z) (job : String) : List Instant :=
  if job ∈ upd.changed then (s.owedUntil job upd.now).toOption.getD [] else []

variable {upd : Update}

theorem plans_spec {plans : List (String × Option (SchedulePlan Z))} (h : upd.plans = .ok plans) :
    plans.map Prod.fst = upd.rebuilt ∧ ∀ e ∈ plans, e.2 = planOf Z upd.catalog upd.settings e.1 := by
  obtain ⟨base_tz, hbase, hplans⟩ := bind_eq_ok.mp h
  obtain ⟨hnames, hcompiled⟩ := mapM_pair hplans
  exact ⟨hnames, fun e he => (planOf_eq hbase (hcompiled e he)).symm⟩

theorem owed_spec {owes : List (String × List Instant)} (h : upd.owed s = .ok owes) :
    ((setAll owes).get? j).getD [] = upd.owes s j := by
  obtain ⟨hnames, hread⟩ := mapM_pair h
  rw [get?_setAll (f := fun j => (s.owedUntil j upd.now).toOption.getD [])
    (fun e he => by rw [hread e he]; rfl), hnames, Update.owes]
  split
  · rfl
  · rfl

theorem rebuilt_nodup : upd.rebuilt.Nodup := Finset.sort_nodup _ _

theorem mem_rebuilt : j ∈ upd.rebuilt ↔ j ∈ upd.added ∨ j ∈ upd.changed := by
  rw [Update.rebuilt, Finset.mem_sort, List.mem_toFinset, List.mem_append]

/-- A refused update changes nothing. -/
theorem replace_refused (h : ¬upd.Accepted s) :
    (∃ e, (replace upd).result s = .error e) ∧ (replace upd).after s = s := by
  unfold replace
  simp only [result_bind, after_bind, result_get, after_get, result_ofExcept, after_ofExcept]
  cases hcheck : upd.check s with
  | error e => exact ⟨⟨e, rfl⟩, rfl⟩
  | ok _ =>
    cases hplans : upd.plans (Z := Z) with
    | error e => exact ⟨⟨e, rfl⟩, rfl⟩
    | ok plans =>
      cases howed : upd.owed s with
      | error e => exact ⟨⟨e, rfl⟩, rfl⟩
      | ok owes => exact absurd ⟨hcheck, ⟨plans, hplans⟩, owes, howed⟩ h

/-- An accepted update whose plans answer follows each job's own part of it. -/
theorem replace_spec (h : upd.Accepted s)
    (hstarts : ∀ j ∈ upd.rebuilt,
      s.Starts upd.now (upd.owes s j) j (planOf Z upd.catalog upd.settings j)) :
    (replace upd).result s = .ok () ∧
      (∀ j ∈ upd.rebuilt, Installed s ((replace upd).after s) j upd.now (upd.owes s j)
        (planOf Z upd.catalog upd.settings j)) ∧
      (∀ j ∉ upd.rebuilt, j ∈ upd.removed → Dropped s ((replace upd).after s) j) ∧
      ∀ j ∉ upd.rebuilt, j ∉ upd.removed → SameAt s ((replace upd).after s) j := by
  obtain ⟨hcheck, ⟨plans, hplans⟩, owes, howed⟩ := h
  obtain ⟨hnames, hplan⟩ := plans_spec hplans
  -- the state the loop of installations starts from
  let d : Scheduler Z := (upd.removed ++ upd.rebuilt).foldl drop
    { s with settings := upd.settings, catalog_hash := upd.catalog.hash }
  have hdrop : ∀ j ∈ upd.removed ++ upd.rebuilt, Dropped s d j := fun j hj =>
    let h := dropAll_spec.1 hj
    ⟨h.plans, h.next, h.consumed, h.owed⟩
  have hkeep : ∀ j ∉ upd.removed ++ upd.rebuilt, SameAt s d j := fun j hj =>
    let h := dropAll_spec.2 hj
    ⟨h.plans, h.next, h.consumed, h.owed⟩
  have hmem : ∀ e ∈ plans, e.1 ∈ upd.rebuilt := fun e he => hnames ▸ List.mem_map_of_mem he
  have hconsumed : ∀ j ∈ upd.rebuilt, d.startOf j upd.now = s.startOf j upd.now := fun j hj =>
    startOf_congr upd.now (hdrop j (List.mem_append_right _ hj)).consumed
  obtain ⟨hresult, hin, hout⟩ := installAll_spec (s := d) upd.now (setAll owes)
    (hnames.symm ▸ rebuilt_nodup)
    (fun e he => by
      have h := hdrop e.1 (List.mem_append_right _ (hmem e he))
      exact ⟨h.plans, h.next, rfl, h.owed⟩)
    (fun e he => by
      rw [owed_spec howed, hplan e he, Starts, hconsumed e.1 (hmem e he)]
      exact hstarts e.1 (hmem e he))
  unfold replace
  simp only [result_bind, after_bind, result_get, after_get, result_ofExcept, after_ofExcept, hcheck,
    hplans, howed, result_modify, after_modify]
  refine ⟨hresult, fun j hj => ?_, fun j hj hremoved => ?_, fun j hj hremoved => ?_⟩
  · obtain ⟨e, he, rfl⟩ := List.mem_map.mp (hnames.symm ▸ hj)
    have h := hin e he
    rw [owed_spec howed, hplan e he] at h
    refine ⟨h.plans, ?_, h.consumed.trans (hdrop e.1 (List.mem_append_right _ hj)).consumed, ?_⟩
    · rw [← hconsumed e.1 hj]
      exact h.next
    · rw [← hconsumed e.1 hj]
      exact h.owed
  · have h := hout j (by rwa [hnames])
    have hd := hdrop j (List.mem_append_left _ hremoved)
    exact ⟨h.plans.trans hd.plans, h.next.trans hd.next, h.consumed.trans hd.consumed,
      h.owed.trans hd.owed⟩
  · have hnot : j ∉ upd.removed ++ upd.rebuilt := fun h => (List.mem_append.mp h).elim hremoved hj
    exact (hkeep j hnot).trans (hout j (by rwa [hnames]))

end Scheduler

end Dsl41.Timing
