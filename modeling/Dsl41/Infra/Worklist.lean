import Mathlib.Tactic.TypeStar

/-!
# A worklist that stands in for a recursion

A step handles one item, says what it did and queues children. The loop takes the head of one
list and puts the children at its front; the recursion handles an item, then its children with
all their descendants, then the next item. Both do the same steps in the same order.

* `Descent.append_iff` — a list is handled part by part
* `loop_iff_descent` — the loop is the recursion
-/

namespace Dsl41.Infra

variable {σ ι τ ε : Type*} (step : σ → ι → Except ε (σ × τ × List ι))

/-- The loop, up to the empty worklist, with the trace of its steps. -/
inductive Loop : σ → List ι → List τ → σ → Prop
  | done {s : σ} : Loop s [] [] s
  | next {s s₁ s₂ : σ} {item : ι} {rest children : List ι} {t : τ} {ts : List τ}
      (h : step s item = .ok (s₁, t, children)) (hl : Loop s₁ (children ++ rest) ts s₂) :
      Loop s (item :: rest) (t :: ts) s₂

/-- The recursion over a list of items: the head, its children with all their descendants, then
the rest. -/
inductive Descent : σ → List ι → List τ → σ → Prop
  | nil {s : σ} : Descent s [] [] s
  | cons {s s₁ s₂ s₃ : σ} {item : ι} {rest children : List ι} {t : τ} {ts us : List τ}
      (h : step s item = .ok (s₁, t, children)) (hc : Descent s₁ children ts s₂)
      (hr : Descent s₂ rest us s₃) : Descent s (item :: rest) (t :: (ts ++ us)) s₃

variable {step}

/-- A list is handled part by part. -/
theorem Descent.append_iff : ∀ {a b : List ι} {s s' : σ} {ts : List τ},
    Descent step s (a ++ b) ts s' ↔
      ∃ us vs m, Descent step s a us m ∧ Descent step m b vs s' ∧ ts = us ++ vs
  | [], b, s, s', ts => by
    constructor
    · exact fun h => ⟨[], ts, s, .nil, h, rfl⟩
    · rintro ⟨us, vs, m, ha, hb, rfl⟩
      cases ha
      exact hb
  | item :: a, b, s, s', ts => by
    constructor
    · intro h
      rw [List.cons_append] at h
      cases h with
      | cons h hc hr =>
        obtain ⟨us, vs, m, ha, hb, rfl⟩ := Descent.append_iff.mp hr
        exact ⟨_, vs, m, .cons h hc ha, hb, by rw [List.cons_append, List.append_assoc]⟩
    · rintro ⟨us, vs, m, ha, hb, rfl⟩
      cases ha with
      | cons h hc hr =>
        have hrest := Descent.append_iff.mpr ⟨_, vs, m, hr, hb, rfl⟩
        have := Descent.cons h hc hrest
        rwa [← List.append_assoc, ← List.cons_append] at this

/-- The loop over a list followed by another first empties the one, then the other. -/
theorem Loop.append {a b : List ι} {s m s' : σ} {us vs : List τ} (ha : Loop step s a us m)
    (hb : Loop step m b vs s') : Loop step s (a ++ b) (us ++ vs) s' := by
  induction ha with
  | done => exact hb
  | next h _ ih =>
    rw [List.cons_append, List.cons_append]
    refine .next h ?_
    rw [← List.append_assoc]
    exact ih hb

/-- **The loop does the steps of the recursion, in its order.** -/
theorem loop_iff_descent {s s' : σ} {w : List ι} {ts : List τ} :
    Loop step s w ts s' ↔ Descent step s w ts s' := by
  constructor
  · intro h
    induction h with
    | done => exact .nil
    | next h _ ih =>
      obtain ⟨us, vs, m, hc, hr, rfl⟩ := Descent.append_iff.mp ih
      exact .cons h hc hr
  · intro h
    induction h with
    | nil => exact .done
    | cons h _ _ ihc ihr => exact .next h (ihc.append ihr)

end Dsl41.Infra
