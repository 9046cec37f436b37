import Dsl41.StateMachine.Runs

/-!
# What a microstep chains

Whatever a microstep queues has its item's ancestry and one link more, and none of it is a released
event: those come from `release` alone, each the head of a deferred queue.
-/

namespace Dsl41.StateMachine

open Infra

variable {κ υ ω : Type} {step step' step'' : Microstep κ υ} {r r' : Records κ υ ω}

/-- The item was produced by the microstep: it has its ancestry, and is not a released one. -/
def Microstep.Chained (step : Microstep κ υ) (item : Item κ υ) : Prop :=
  item.ancestry = step.chained ∧ item.released = false

/-- What a microstep reports on the way is chained to its item. -/
structure Chains (step step' : Microstep κ υ) : Prop where
  item : step'.item = step.item
  chained : (∀ i ∈ step.reported ++ step.continuations, step.Chained i) →
    ∀ i ∈ step'.reported ++ step'.continuations, step.Chained i

theorem Chains.refl : Chains step step := ⟨rfl, id⟩

theorem Chains.trans (h : Chains step step') (h' : Chains step' step'') : Chains step step'' where
  item := h'.item.trans h.item
  chained hstep := by
    have hchained : step'.Chained = step.Chained := by
      funext i
      rw [Microstep.Chained, Microstep.Chained, Microstep.chained, Microstep.chained, h.item]
    have hmore := h'.chained
    rw [hchained] at hmore
    exact hmore (h.chained hstep)

theorem reportSends_chains : ∀ {sends : List (κ × Event υ)} {step step' : Microstep κ υ},
    reportSends r sends step = .ok step' → Chains step step'
  | [], step, step', h => by
    cases h
    exact .refl
  | (key, event) :: sends, step, step', h => by
    unfold reportSends at h
    obtain ⟨inst, -, h⟩ := bind_eq_ok.mp h
    obtain ⟨_, -, h⟩ := bind_eq_ok.mp h
    have hone : Chains step { step with reported := step.reported ++
        [{ key, kind := .event, event, ancestry := step.chained }] } := ⟨rfl, fun hstep i hi => by
      simp only [List.mem_append, List.mem_singleton] at hi hstep
      rcases hi with (hi | rfl) | hi
      · exact hstep i (.inl hi)
      · exact ⟨rfl, rfl⟩
      · exact hstep i (.inr hi)⟩
    exact hone.trans (reportSends_chains h)

variable [DecidableEq κ]

theorem call_chains {name : Name} (h : call r step name = .ok (r', step')) : Chains step step' := by
  unfold call at h
  split at h
  · cases h
    exact .refl
  · obtain ⟨inst, -, h⟩ := bind_eq_ok.mp h
    split at h
    · cases h
    next action _ =>
      simp only at h
      split at h
      · cases h
        exact .refl
      next fx _ =>
        obtain ⟨sent, hsent, h⟩ := bind_eq_ok.mp h
        obtain ⟨r₂, -, h⟩ := bind_eq_ok.mp h
        cases h
        refine (reportSends_chains hsent).trans ⟨rfl, fun hstep i hi => ?_⟩
        simp only [List.mem_append] at hi hstep
        rcases hi with hi | hi
        · exact hstep i (.inl hi)
        · split at hi
          · exact hstep i (.inr hi)
          · rcases List.mem_append.mp hi with hi | hi
            · exact hstep i (.inr hi)
            · rw [List.mem_singleton.mp hi]
              exact ⟨rfl, rfl⟩

theorem exitStates_chains {ix : Index} : ∀ {l : List Name} {r r' : Records κ υ ω} {step step' : Microstep κ υ},
    exitStates ix l r step = .ok (r', step') → Chains step step'
  | [], r, r', step, step', h => by
    cases h
    exact .refl
  | s :: l, r, r', step, step', h => by
    unfold exitStates at h
    obtain ⟨⟨r₁, step₁⟩, hcall, h⟩ := bind_eq_ok.mp h
    obtain ⟨inst, -, h⟩ := bind_eq_ok.mp h
    have hleft : Chains step₁ { step₁ with left := step₁.left ++ [s] } := ⟨rfl, id⟩
    exact (call_chains hcall).trans (hleft.trans (exitStates_chains h))

theorem enterStates_chains {ix : Index} : ∀ {l : List Name} {r r' : Records κ υ ω} {step step' : Microstep κ υ},
    enterStates ix l r step = .ok (r', step') → Chains step step'
  | [], r, r', step, step', h => by
    cases h
    exact .refl
  | s :: l, r, r', step, step', h => by
    unfold enterStates at h
    obtain ⟨inst, -, h⟩ := bind_eq_ok.mp h
    obtain ⟨⟨r₁, step₁⟩, hcall, h⟩ := bind_eq_ok.mp h
    have hentered : Chains step₁ { step₁ with entered := step₁.entered ++ [s] } := ⟨rfl, id⟩
    exact (call_chains hcall).trans (hentered.trans (enterStates_chains h))

theorem choose_chains {choice : Choice} {target : Name} (h : choose r step choice = .ok (r', step', target)) :
    Chains step step' := by
  unfold choose at h
  obtain ⟨inst, -, h⟩ := bind_eq_ok.mp h
  obtain ⟨found, -, h⟩ := bind_eq_ok.mp h
  cases found with
  | none => cases h
  | some branch =>
    obtain ⟨⟨r₁, step₁⟩, hcall, h⟩ := bind_eq_ok.mp h
    cases h
    have hbranch : Chains step { step with branches := step.branches ++ [branch.id] } := ⟨rfl, id⟩
    exact hbranch.trans (call_chains hcall)

theorem runRow_chains {row : Row} (h : runRow r step row = .ok (r', step')) : Chains step step' := by
  unfold runRow at h
  obtain ⟨inst, -, h⟩ := bind_eq_ok.mp h
  simp only at h
  split at h
  · exact call_chains h
  · obtain ⟨exits, -, h⟩ := bind_eq_ok.mp h
    obtain ⟨⟨r₁, step₁⟩, hexit, h⟩ := bind_eq_ok.mp h
    obtain ⟨⟨r₂, step₂⟩, hcall, h⟩ := bind_eq_ok.mp h
    have hrow := (exitStates_chains hexit).trans (call_chains hcall)
    simp only at h
    split at h
    · exact hrow.trans (enterStates_chains h)
    · obtain ⟨⟨r₃, step₃, target⟩, hchoose, h⟩ := bind_eq_ok.mp h
      exact hrow.trans ((choose_chains hchoose).trans (enterStates_chains h))

theorem runRows_chains : ∀ {rows : List Row} {r r' : Records κ υ ω} {step step' : Microstep κ υ},
    runRows rows r step = .ok (r', step') → Chains step step'
  | [], r, r', step, step', h => by
    cases h
    exact .refl
  | row :: rows, r, r', step, step', h => by
    unfold runRows at h
    obtain ⟨⟨r₁, step₁⟩, hrow, h⟩ := bind_eq_ok.mp h
    exact (runRow_chains hrow).trans (runRows_chains h)

/-- Whatever a firing set queues is chained to its item. -/
theorem fire_chains {item : Item κ υ} {rows : List Row} {kind : OutcomeKind} {out : Outcome κ υ} {q : Queued κ υ}
    (h : fire r item rows kind = .ok (r', out, q)) :
    ∀ i ∈ q.order, i.ancestry = item.ancestry ++ [(item.key, item.event.name)] ∧ i.released = false := by
  unfold fire at h
  obtain ⟨inst, -, h⟩ := bind_eq_ok.mp h
  obtain ⟨⟨r₁, step₁⟩, h₁, h⟩ := bind_eq_ok.mp h
  obtain ⟨⟨r₂, step₂⟩, h₂, h⟩ := bind_eq_ok.mp h
  obtain ⟨⟨r₃, step₃⟩, h₃, h⟩ := bind_eq_ok.mp h
  obtain ⟨inst', -, h⟩ := bind_eq_ok.mp h
  cases h
  have hfirst : Chains { item } step₁ := by
    split at h₁
    · exact call_chains h₁
    · cases h₁
      exact .refl
  have hsecond : Chains step₁ step₂ := by
    split at h₂
    · exact enterStates_chains h₂
    · cases h₂
      exact .refl
  have hall := hfirst.trans (hsecond.trans (runRows_chains h₃))
  intro i hi
  simp only [Queued.order, completions] at hi
  rcases List.mem_append.mp hi with hi | hi
  · exact hall.chained (fun i hi => absurd hi List.not_mem_nil) i hi
  · obtain ⟨state, -, rfl⟩ := List.mem_map.mp hi
    refine ⟨?_, rfl⟩
    rw [Microstep.chained, hall.item]

theorem microstep_chains {item : Item κ υ} {out : Outcome κ υ} {q : Queued κ υ}
    (h : microstep r item = .ok (r', out, q)) :
    ∀ i ∈ q.order, i.ancestry = item.ancestry ++ [(item.key, item.event.name)] ∧ i.released = false := by
  obtain ⟨inst, -, hrun⟩ := microstep_cases h
  cases hrun with
  | discarded _ => exact fun i hi => nomatch hi
  | deferred _ _ _ => exact fun i hi => nomatch hi
  | ran _ hf => exact fire_chains hf

/-! ## Released heads -/

/-- A released item is the head of the first queue whose configuration no longer defers it. -/
theorem releaseFrom_head {item : Item κ υ} : ∀ {keys : List κ}, releaseFrom r keys = .ok (some (item, r')) →
    ∃ inst head tail, r.instances item.key = some inst ∧ inst.deferred = head :: tail ∧
      item = { key := item.key, kind := .event, event := head.event, released := true } ∧
      headWaits r inst item = .ok false ∧
      r' = { r.write item.key { inst with deferred := tail } with
        deferring := if tail = [] then r.deferring.filter (· ≠ item.key) else r.deferring }
  | [], h => by cases h
  | key :: keys, h => by
    unfold releaseFrom at h
    obtain ⟨inst, hi, h⟩ := bind_eq_ok.mp h
    split at h
    · cases h
    next head tail hdeferred =>
      obtain ⟨waits, hwaits, h⟩ := bind_eq_ok.mp h
      cases waits with
      | true => exact releaseFrom_head h
      | false =>
        cases h
        exact ⟨inst, head, tail, get_eq_ok.mp hi, hdeferred, rfl, hwaits, rfl⟩

/-- Where nothing is released every head waits. -/
theorem releaseFrom_none : ∀ {keys : List κ}, releaseFrom r keys = .ok none → ∀ key ∈ keys,
    ∃ inst head tail, r.instances key = some inst ∧ inst.deferred = head :: tail ∧
      headWaits r inst { key, kind := .event, event := head.event, released := true } = .ok true
  | [], _, _, hkey => nomatch hkey
  | key :: keys, h, k, hk => by
    unfold releaseFrom at h
    obtain ⟨inst, hi, h⟩ := bind_eq_ok.mp h
    split at h
    · cases h
    next head tail hdeferred =>
      obtain ⟨waits, hwaits, h⟩ := bind_eq_ok.mp h
      cases waits with
      | false => cases h
      | true =>
        rcases List.mem_cons.mp hk with rfl | hk
        · exact ⟨inst, head, tail, get_eq_ok.mp hi, hdeferred, hwaits⟩
        · exact releaseFrom_none h k hk

end Dsl41.StateMachine
