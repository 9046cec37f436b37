import Dsl41.Autocal.Generation

/-!
# The bound of a calendar

A calendar whose rules are all cycle-scoped gets a bound, the margin past its last period. Past the
periods its tokens have no base day, so a rule is constant there: the bound holds when no rule is true
there, or what is generated all the same is excluded or disposed of.
-/

namespace Dsl41.Autocal

open Infra Timing

/-! ## Rules outside the periods -/

/-- The value of a rule whose tokens all have no base day. -/
def Node.outside : Node → Bool
  | tok t => t.exclusive
  | not inner => !inner.outside
  | and left right => left.outside && right.outside
  | or left right => left.outside || right.outside

theorem Node.eval_outside {day : Day} {ctx : Ctx} (hday : periodOf day ctx = none) :
    ∀ {node : Node}, (∀ t ∈ node.tokens, t.cycle_scoped = true) → node.eval day ctx = node.outside
  | tok t, h => by
    have hbase : t.base day ctx = false := t.within (h t (List.mem_singleton_self t)) day ctx hday
    rw [eval, outside, hbase]
    cases t.exclusive <;> rfl
  | not inner, h => by
    have hinner : inner.eval day ctx = inner.outside := eval_outside hday h
    rw [eval, outside, hinner]
  | and left right, h => by
    rw [eval, outside, eval_outside hday fun t ht => h t (List.mem_append_left _ ht),
      eval_outside hday fun t ht => h t (List.mem_append_right _ ht)]
  | or left right, h => by
    rw [eval, outside, eval_outside hday fun t ht => h t (List.mem_append_left _ ht),
      eval_outside hday fun t ht => h t (List.mem_append_right _ ht)]

namespace CompiledCalendar

variable {cal : CompiledCalendar} {b c d cap cur day : Day}

/-- What a bound says: all rules are cycle-scoped, and no period ends in the margin before it. -/
theorem bound_spec (h : cal.bound = some b) : (∀ node ∈ cal.includes, ∀ t ∈ node.tokens, t.cycle_scoped = true) ∧
    ∀ period ∈ cal.ctx.periods, period.2 ≤ b - MARGIN := by
  rw [cal.bound_eq, boundOf] at h
  split at h
  · next hall =>
    obtain ⟨last, hlast, rfl⟩ := Option.map_eq_some_iff.mp h
    refine ⟨fun node hnode t ht => ?_, fun period hperiod => ?_⟩
    · exact List.all_eq_true.mp (List.all_eq_true.mp hall node hnode) t ht
    · have hle : period.2 ≤ last := (List.max?_eq_some_iff.mp hlast).2 _ (List.mem_map_of_mem hperiod)
      exact le_trans hle (Int.add_sub_cancel last MARGIN).ge
  · cases h

theorem periodOf_past {ctx : Ctx} (h : ∀ period ∈ ctx.periods, period.2 < c) : periodOf c ctx = none := by
  rw [periodOf, List.findSome?_eq_none_iff]
  rintro ⟨period, idx⟩ hmem
  have hperiod : period ∈ ctx.periods := List.fst_mem_of_mem_zipIdx hmem
  exact if_neg fun hin => absurd (h period hperiod) (not_lt.mpr hin.2)

/-! ## Generated days -/

/-- Some window returns the day. -/
def Produced (cal : CompiledCalendar) (d : Day) : Prop := ∃ lo hi days, cal.daysBetween lo hi = .ok days ∧ d ∈ days

/-- A candidate near the day is refused, and with it every window of the day. -/
def Refused (cal : CompiledCalendar) (d : Day) : Prop :=
  ∃ c e, d - MARGIN ≤ c ∧ c ≤ d + MARGIN ∧ cal.included c = true ∧ cal.disposeDay c = .error e

theorem produced_iff : Produced cal d ↔ Generates cal d ∧ ¬Refused cal d := by
  constructor
  · rintro ⟨lo, hi, days, hdays, hmem⟩
    obtain ⟨⟨hlo, hhi⟩, hgen⟩ := (mem_daysBetween hdays).mp hmem
    refine ⟨hgen, fun ⟨c, e, hfrom, hto, hincluded, herror⟩ => ?_⟩
    obtain ⟨out, hout, -⟩ := (daysBetween_eq (le_trans hlo hhi)).mp hdays
    have hcandidate : c ∈ cal.candidates lo hi :=
      mem_candidates.mpr ⟨⟨le_trans (Int.sub_le_sub_right hlo _) hfrom, le_trans hto (Int.add_le_add_right hhi _)⟩, hincluded⟩
    obtain ⟨r, hr⟩ := (dispose_from hout).2 c hcandidate
    cases herror.symm.trans hr
  · rintro ⟨hgen, hrefused⟩
    have hall : ∀ c ∈ cal.candidates d d, ∃ r, cal.disposeDay c = .ok r := fun c hc => by
      obtain ⟨⟨hfrom, hto⟩, hincluded⟩ := mem_candidates.mp hc
      cases hdispose : cal.disposeDay c with
      | ok r => exact ⟨r, rfl⟩
      | error e => exact absurd ⟨c, e, hfrom, hto, hincluded, hdispose⟩ hrefused
    obtain ⟨out, hout⟩ := dispose_ok hall
    have hdays := (daysBetween_eq (le_refl d)).mpr ⟨out, hout, rfl⟩
    exact ⟨d, d, _, hdays, (mem_daysBetween hdays).mpr ⟨⟨le_refl d, le_refl d⟩, hgen⟩⟩

/-! ## The first day -/

/-- What a window returns is what is generated in it. -/
theorem mem_window {lo hi : Day} {days : Finset Day} (h : cal.daysBetween lo hi = .ok days) :
    d ∈ days ↔ (lo ≤ d ∧ d ≤ hi) ∧ Produced cal d :=
  ⟨fun hmem => ⟨((mem_daysBetween h).mp hmem).1, lo, hi, days, h, hmem⟩,
    fun hd => (mem_daysBetween h).mpr ⟨hd.1, (produced_iff.mp hd.2).1⟩⟩

/-- What a scan from a day to an end may answer. -/
structure Answers (cal : CompiledCalendar) (day cap : Day) (r : Option Day) : Prop where
  first : ∀ x, r = some x → IsLeast {y | day ≤ y ∧ Produced cal y} x
  exhausted : r = none → ∀ y, day ≤ y → y ≤ cap → ¬Produced cal y

/-- The scan finds the least generated day, or none up to its end. -/
theorem firstFrom_spec : ∀ {n : Nat} {cur : Day} {r : Option Day}, (cap - cur + 1).toNat ≤ n → day ≤ cur →
    (∀ y, day ≤ y → y < cur → ¬Produced cal y) → cal.firstFrom day cap n cur = .ok r → Answers cal day cap r
  | 0, cur, r, hn, hcur, hbefore, h => by
    obtain rfl := Except.ok.inj h
    refine ⟨nofun, fun _ y hy hcap => hbefore y hy ?_⟩
    simp only [Day] at *
    omega
  | n + 1, cur, r, hn, hcur, hbefore, h => by
    rw [firstFrom] at h
    split at h
    · next hle =>
      obtain ⟨days, hdays, h⟩ := bind_eq_ok.mp h
      have hwindow : cur ≤ min (cur + 365) cap ∧ min (cur + 365) cap ≤ cap := by
        simp only [Day] at *
        omega
      have hhit : ∀ {y}, y ∈ days.filter (fun d => day ≤ d) ↔ day ≤ y ∧ (cur ≤ y ∧ y ≤ min (cur + 365) cap) ∧ Produced cal y :=
        fun {y} => by rw [Finset.mem_filter, mem_window hdays, and_comm]
      dsimp only at h
      split at h
      · next hits =>
        obtain rfl := Except.ok.inj h
        obtain ⟨hday, hin, hproduced⟩ := hhit.mp (Finset.min'_mem _ hits)
        refine ⟨fun x hx => ?_, nofun⟩
        obtain rfl := Option.some.inj hx
        refine ⟨⟨hday, hproduced⟩, fun y ⟨hy, hyproduced⟩ => ?_⟩
        by_contra hlt
        have hyend : y ≤ min (cur + 365) cap := le_trans (not_le.mp hlt).le hin.2
        have hycur : cur ≤ y := not_lt.mp fun hbef => hbefore y hy hbef hyproduced
        exact hlt (Finset.min'_le _ y (hhit.mpr ⟨hy, ⟨hycur, hyend⟩, hyproduced⟩))
      · next hnone =>
        refine firstFrom_spec ?_ ?_ (fun y hy hlt hproduced => ?_) h
        · simp only [Day] at *
          omega
        · simp only [Day] at *
          omega
        · have hycur : cur ≤ y := not_lt.mp fun hbef => hbefore y hy hbef hproduced
          exact hnone ⟨y, hhit.mpr ⟨hy, ⟨hycur, Int.lt_add_one_iff.mp hlt⟩, hproduced⟩⟩
    · next hgt =>
      obtain rfl := Except.ok.inj h
      exact ⟨nofun, fun _ y hy hcap => hbefore y hy (lt_of_le_of_lt hcap (not_le.mp hgt))⟩

theorem firstOnOrAfter_spec {r : Option Day} (h : cal.firstOnOrAfter day = .ok r) : Answers cal day (cal.cap day) r :=
  firstFrom_spec le_rfl le_rfl (fun _ hy hlt => absurd hy (not_le.mpr hlt)) h

/-! ## The bound -/

/-- No rule is true outside the periods, or what the rules generate past the last period is excluded,
refused or disposed of within the bound. -/
def Bounding (cal : CompiledCalendar) : Prop :=
  ∀ b, cal.bound = some b → (∃ node ∈ cal.includes, node.outside = true) →
    ∀ c, b - MARGIN < c → (∀ node ∈ cal.excludes, node.eval c cal.ctx = false) →
      ∀ d, cal.disposeDay c = .ok (some d) → d + cal.adjust ≤ b ∨ Refused cal (d + cal.adjust)

/-- A calendar keeps to its bound, and its first day on or after a day is the least one. -/
structure Keeps (cal : CompiledCalendar) : Prop where
  bound : ∀ b, cal.bound = some b → ∀ d, Produced cal d → d ≤ b
  first : ∀ day r, cal.firstOnOrAfter day = .ok r → Answers cal day (cal.cap day) r

theorem included_past (h : cal.bound = some b) (hc : b - MARGIN < c) : cal.included c = true ↔
    (∃ node ∈ cal.includes, node.outside = true) ∧ ∀ node ∈ cal.excludes, node.eval c cal.ctx = false := by
  obtain ⟨hscoped, hends⟩ := bound_spec h
  have hnone : periodOf c cal.ctx = none := periodOf_past fun period hperiod => lt_of_le_of_lt (hends period hperiod) hc
  have hincludes : (cal.includes.any fun node => node.eval c cal.ctx) = true ↔ ∃ node ∈ cal.includes, node.outside = true := by
    rw [List.any_eq_true]
    refine exists_congr fun node => and_congr_right fun hnode => ?_
    rw [Node.eval_outside hnone (hscoped node hnode)]
  unfold included
  cases hany : cal.includes.any fun node => node.eval c cal.ctx with
  | false =>
    rw [← hincludes, hany]
    simp
  | true =>
    rw [← hincludes, hany]
    simp

/-- A calendar keeps to its bound exactly when nothing is generated past its periods that would leave it. -/
theorem keeps_iff (cal : CompiledCalendar) : Keeps cal ↔ Bounding cal := by
  constructor
  · intro h b hb houtside c hc hexcludes d hd
    by_cases hrefused : Refused cal (d + cal.adjust)
    · exact .inr hrefused
    · refine .inl (h.bound b hb _ (produced_iff.mpr ⟨⟨c, (included_past hb hc).mpr ⟨houtside, hexcludes⟩, ?_⟩, hrefused⟩))
      rw [hd]
      exact congrArg (fun t => Except.ok (some t)) (Int.add_sub_cancel d cal.adjust).symm
  · refine fun h => ⟨fun b hb d hproduced => ?_, fun day r => firstOnOrAfter_spec⟩
    by_contra hpast
    obtain ⟨⟨c, hincluded, hdispose⟩, hrefused⟩ := produced_iff.mp hproduced
    -- a candidate moves less than the margin
    have hc : b - MARGIN < c := by
      have hnear := disposeDay_near hdispose
      have hadjust := cal.adjust_le
      simp only [Day, WALK_CAP, MARGIN] at *
      omega
    obtain ⟨houtside, hexcludes⟩ := (included_past hb hc).mp hincluded
    have hback : d - cal.adjust + cal.adjust = d := Int.sub_add_cancel d cal.adjust
    rcases h b hb houtside c hc hexcludes _ hdispose with hle | href
    · rw [hback] at hle
      exact hpast hle
    · rw [hback] at href
      exact hrefused href

/-- The calendar as the scheduler asks it, over the text of a refusal. -/
def scheduled (reason : CalendarRuleError → String) (cal : CompiledCalendar) : Timing.CompiledCalendar where
  days_between lo hi :=
    match cal.daysBetween lo hi with
    | .ok days => .ok days
    | .error e => .error (.calendar (reason e))
  bound := cal.bound

/-- A plan finds no day past a bound that is kept. -/
theorem Keeps.contains {reason : CalendarRuleError → String} (h : Keeps cal) (hb : cal.bound = some b) (hpast : b < day) :
    (scheduled reason cal).contains day ≠ .ok true := by
  intro hcontains
  obtain ⟨days, hdays, hmem⟩ := bind_eq_ok.mp hcontains
  have hday : day ∈ days := of_decide_eq_true (Except.ok.inj hmem)
  dsimp only [scheduled] at hdays
  split at hdays
  · next found hfound =>
    obtain rfl := Except.ok.inj hdays
    exact absurd (h.bound b hb day ⟨_, _, _, hfound, hday⟩) (not_le.mpr hpast)
  · cases hdays

/-- A rule that is true in the first period of its cycle, and outside it. -/
def roundTheYear : CalendarIR where
  name := "X"
  attrs := (∅ : Dict String String).set "cyccal" "C"
  conditions := ["cycp#1 | xcycp#1"]

def oneWeek : Catalog where cycles := (∅ : Dict String (List (String × String))).set "C" [("01/01/2024", "01/05/2024")]

/-- The calendar is bounded, and generates the day after its bound. -/
theorem bound_passed : ∃ cal, compileCalendar roundTheYear oneWeek .firstFull = .ok cal ∧ cal.bound = some 739290 ∧
    Produced cal 739291 ∧ ¬Keeps cal := by
  have hcompile : ∃ cal, compileCalendar roundTheYear oneWeek .firstFull = .ok cal ∧ cal.bound = some 739290 ∧
      cal.non_workday = none ∧ cal.holiday = none ∧ cal.included 739291 = true ∧
        cal.disposeDay 739291 = .ok (some (739291 - cal.adjust)) := ⟨_, rfl, rfl, rfl, rfl, rfl, rfl⟩
  obtain ⟨cal, hok, hbound, hnon, hhol, hincluded, hdispose⟩ := hcompile
  obtain ⟨days, hdays⟩ := daysBetween_plain hnon hhol 739291 739291
  have hproduced : Produced cal 739291 :=
    ⟨_, _, days, hdays, (mem_daysBetween hdays).mpr ⟨⟨le_rfl, le_rfl⟩, 739291, hincluded, hdispose⟩⟩
  exact ⟨cal, hok, hbound, hproduced, fun h => absurd (h.bound _ hbound _ hproduced) (by decide)⟩

end CompiledCalendar

end Dsl41.Autocal
