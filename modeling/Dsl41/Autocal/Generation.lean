import Mathlib.Order.Bounds.Basic
import Dsl41.Autocal.Calendar

/-!
# Generation

A candidate moves by a walk of a year at most and a shift of nine days, which the margin covers: what
a window generates is what the rules generate, whichever the window.
-/

namespace Dsl41.Autocal.CompiledCalendar

open Infra Timing

variable {cal : CompiledCalendar} {lo hi lo' hi' c d day : Day} {days days' out : Finset Day}

/-! ## How far a candidate moves -/

theorem self_near (n : Nat) : (d - d).natAbs ≤ n := by
  simp only [Day] at *
  omega

theorem walk_near {step : Int} {holiday_free : Bool} {code : Action} {category : Category} (hstep : step.natAbs ≤ 1) :
    ∀ {n : Nat} {probe : Day}, cal.walk step holiday_free code category n probe = .ok d → (d - probe).natAbs ≤ n
  | n + 1, probe, h => by
    have hmore : ∀ {d : Day}, (d - (probe + step)).natAbs ≤ n → (d - probe).natAbs ≤ n + 1 := by
      simp only [Day] at *
      omega
    rw [walk] at h
    split at h
    · exact hmore (walk_near hstep h)
    · split at h
      · exact hmore (walk_near hstep h)
      · obtain rfl := Except.ok.inj h
        exact hmore (self_near _)

theorem replace_near {category : Category} {code : Action} (h : cal.replace category code c = .ok d) :
    (d - c).natAbs ≤ WALK_CAP := by
  unfold replace at h
  split at h
  · obtain rfl := Except.ok.inj h
    simp only [Day, WALK_CAP] at *
    omega
  · split at h
    · exact walk_near (by decide) h
    · refine walk_near ?_ h
      split <;> decide

/-- A disposed candidate is moved by a walk at most. -/
theorem disposeDay_near (h : cal.disposeDay c = .ok (some d)) : (d - c).natAbs ≤ WALK_CAP := by
  have hself : ∀ {x : Day}, (Except.ok (some x) : Except CalendarRuleError _) = .ok (some d) → (d - x).natAbs ≤ WALK_CAP := by
    intro x hx
    obtain rfl := Option.some.inj (Except.ok.inj hx)
    exact self_near _
  have hmoved : ∀ {category : Category} {code : Action},
      some <$> cal.replace category code c = .ok (some d) → (d - c).natAbs ≤ WALK_CAP := by
    intro category code hx
    obtain ⟨target, htarget, heq⟩ := map_eq_ok.mp hx
    obtain rfl := Option.some.inj heq
    exact replace_near htarget
  unfold disposeDay at h
  split at h
  · split at h
    · exact hmoved h
    · exact hself h
  · split at h
    · cases h
    · dsimp only at h
      split at h
      · split at h
        · exact hself h
        · cases h
      · split at h
        · exact hmoved h
        · exact hself h
      · exact hself h

/-! ## What a window generates -/

/-- The day comes from a candidate that the rules include. -/
def Generates (cal : CompiledCalendar) (d : Day) : Prop :=
  ∃ c, cal.included c = true ∧ cal.disposeDay c = .ok (some (d - cal.adjust))

theorem dispose_from : ∀ {cs : List Day} {start : Finset Day},
    (cs.foldlM (fun out day => do
      match ← cal.disposeDay day with
      | some target => return insert target out
      | none => return out) start : Except CalendarRuleError (Finset Day)) = .ok out →
    (∀ d, d ∈ out ↔ d ∈ start ∨ ∃ c ∈ cs, cal.disposeDay c = .ok (some d)) ∧ ∀ c ∈ cs, ∃ r, cal.disposeDay c = .ok r
  | [], start, h => by
    obtain rfl := Except.ok.inj h
    exact ⟨fun d => by simp, nofun⟩
  | c :: cs, start, h => by
    rw [List.foldlM_cons] at h
    obtain ⟨next, hnext, h⟩ := bind_eq_ok.mp h
    obtain ⟨r, hr, hnext⟩ := bind_eq_ok.mp hnext
    obtain ⟨hmem, hall⟩ := dispose_from h
    refine ⟨fun d => ?_, fun c' hc' => ?_⟩
    · rw [hmem]
      cases r with
      | none =>
        obtain rfl := Except.ok.inj hnext
        simp [hr]
      | some target =>
        obtain rfl := Except.ok.inj hnext
        simp only [Finset.mem_insert, List.exists_mem_cons_iff, hr, Except.ok.injEq, Option.some.injEq]
        rw [or_comm (a := d = target), or_assoc, eq_comm (a := d)]
    · rcases List.mem_cons.mp hc' with rfl | hc'
      · exact ⟨r, hr⟩
      · exact hall c' hc'

theorem mem_dispose {cs : List Day} (h : cal.dispose cs = .ok out) :
    d ∈ out ↔ ∃ c ∈ cs, cal.disposeDay c = .ok (some d) := by
  rw [(dispose_from h).1 d]
  simp

theorem dispose_ok {cs : List Day} (h : ∀ c ∈ cs, ∃ r, cal.disposeDay c = .ok r) : ∃ out, cal.dispose cs = .ok out := by
  unfold dispose
  generalize (∅ : Finset Day) = start
  induction cs generalizing start with
  | nil => exact ⟨start, rfl⟩
  | cons c cs ih =>
    obtain ⟨r, hr⟩ := h c List.mem_cons_self
    rw [List.foldlM_cons, hr]
    cases r with
    | none => exact ih (fun c' hc' => h c' (List.mem_cons_of_mem _ hc')) start
    | some target => exact ih (fun c' hc' => h c' (List.mem_cons_of_mem _ hc')) (insert target start)

theorem mem_daysFrom {first : Day} {count : Int} {keep : Day → Bool} :
    c ∈ daysFrom first count keep ↔ first ≤ c ∧ c < first + count ∧ keep c = true := by
  simp only [daysFrom, List.mem_filter, List.mem_map, List.mem_range, ← and_assoc]
  refine and_congr_left fun _ => ⟨?_, fun ⟨hge, hlt⟩ => ⟨(c - first).toNat, ?_, ?_⟩⟩
  · rintro ⟨offset, hoffset, rfl⟩
    simp only [Day] at *
    omega
  all_goals
    simp only [Day] at *
    omega

theorem mem_candidates : c ∈ cal.candidates lo hi ↔ (lo - MARGIN ≤ c ∧ c ≤ hi + MARGIN) ∧ cal.included c = true := by
  rw [candidates, mem_daysFrom, ← and_assoc]
  refine and_congr_left fun _ => and_congr_right fun _ => ?_
  simp only [Day] at *
  omega

theorem daysBetween_eq (h : lo ≤ hi) : cal.daysBetween lo hi = .ok days ↔
    ∃ out, cal.dispose (cal.candidates lo hi) = .ok out ∧
      (out.image fun day => day + cal.adjust).filter (fun day => lo ≤ day ∧ day ≤ hi) = days := by
  rw [daysBetween, if_neg (not_lt.mpr h), bind_eq_ok]
  simp only [pure_eq_ok]

/-- The margin covers every move: a window generates the days of the rules that are in it. -/
theorem mem_daysBetween (h : cal.daysBetween lo hi = .ok days) : d ∈ days ↔ (lo ≤ d ∧ d ≤ hi) ∧ Generates cal d := by
  by_cases hwindow : lo ≤ hi
  · obtain ⟨out, hout, rfl⟩ := (daysBetween_eq hwindow).mp h
    rw [Finset.mem_filter, Finset.mem_image, and_comm]
    refine and_congr_right fun hd => ⟨?_, ?_⟩
    · rintro ⟨target, htarget, rfl⟩
      obtain ⟨c, hc, hdispose⟩ := (mem_dispose hout).mp htarget
      refine ⟨c, (mem_candidates.mp hc).2, ?_⟩
      rw [hdispose]
      exact congrArg (fun t => Except.ok (some t)) (Int.add_sub_cancel target cal.adjust).symm
    · rintro ⟨c, hincluded, hdispose⟩
      refine ⟨d - cal.adjust, (mem_dispose hout).mpr ⟨c, mem_candidates.mpr ⟨?_, hincluded⟩, hdispose⟩,
        Int.sub_add_cancel d cal.adjust⟩
      have hnear := disposeDay_near hdispose
      have hadjust := cal.adjust_le
      simp only [Day, WALK_CAP, MARGIN] at *
      omega
  · have hempty : cal.daysBetween lo hi = .ok ∅ := if_pos (not_le.mp hwindow)
    obtain rfl : ∅ = days := Except.ok.inj (hempty.symm.trans h)
    exact ⟨nofun, fun ⟨⟨hlo, hhi⟩, _⟩ => absurd (le_trans hlo hhi) hwindow⟩

/-- Without actions no candidate is refused. -/
theorem daysBetween_plain (hnon : cal.non_workday = none) (hhol : cal.holiday = none) (lo hi : Day) :
    ∃ days, cal.daysBetween lo hi = .ok days := by
  by_cases hwindow : lo ≤ hi
  · have hplain : ∀ c ∈ cal.candidates lo hi, ∃ r, cal.disposeDay c = .ok r := fun c _ => by
      refine ⟨some c, ?_⟩
      unfold disposeDay
      rw [hnon, hhol]
      rfl
    obtain ⟨out, hout⟩ := dispose_ok hplain
    exact ⟨_, (daysBetween_eq hwindow).mpr ⟨out, hout, rfl⟩⟩
  · exact ⟨∅, if_pos (not_le.mp hwindow)⟩

/-- A calendar's days do not depend on the window they are asked over. -/
theorem daysBetween_window (cal : CompiledCalendar) (hlo : lo ≤ lo') (hhi : hi' ≤ hi) (h : cal.daysBetween lo hi = .ok days)
    (h' : cal.daysBetween lo' hi' = .ok days') : (days.filter fun d => lo' ≤ d ∧ d ≤ hi') = days' := by
  ext d
  rw [Finset.mem_filter, mem_daysBetween h, mem_daysBetween h']
  constructor
  · rintro ⟨⟨-, hd⟩, hwindow⟩
    exact ⟨hwindow, hd⟩
  · rintro ⟨hwindow, hd⟩
    exact ⟨⟨⟨le_trans hlo hwindow.1, le_trans hwindow.2 hhi⟩, hd⟩, hwindow⟩

/-- A calendar of every day, shifted back by two. -/
def shifted : CompiledCalendar where
  name := "SHIFTED"
  ctx := { workdays := List.range 5, holidays := [], periods := [], wekr_first_week := .firstFull }
  includes := [dailyRule]
  excludes := []
  non_workday := none
  holiday := none
  adjust := -2
  bound := none
  adjust_le := by decide
  bound_eq := rfl

theorem daysBetween_window_shifted : ∃ days days', shifted.daysBetween 100 200 = .ok days ∧
    shifted.daysBetween 120 130 = .ok days' ∧ (days.filter fun d => 120 ≤ d ∧ d ≤ 130) = days' := by
  obtain ⟨days, hdays⟩ := @daysBetween_plain shifted rfl rfl 100 200
  obtain ⟨days', hdays'⟩ := @daysBetween_plain shifted rfl rfl 120 130
  exact ⟨days, days', hdays, hdays', daysBetween_window shifted (by decide) (by decide) hdays hdays'⟩

end Dsl41.Autocal.CompiledCalendar
