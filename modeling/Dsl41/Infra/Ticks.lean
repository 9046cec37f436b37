import Mathlib.Order.Bounds.Basic

/-!
# Following a successor

A partial successor function and what it reaches from a first element. Where the successor only
moves up, what is reached after an element is what is reached above it.
-/

namespace Dsl41.Infra

variable {τ : Type}

/-- What is reached from a first element by taking the successor again and again. -/
inductive Chain (next : τ → Option τ) : Option τ → τ → Prop
  | here (t : τ) : Chain next (some t) t
  | later {t u : τ} (h : Chain next (next t) u) : Chain next (some t) u

/-- The successor moves up. -/
def Advances [LT τ] (next : τ → Option τ) : Prop := ∀ t u, next t = some u → t < u

section Chain

variable {next next' : τ → Option τ} {first : Option τ} {t u v : τ}

@[simp] theorem not_chain_none : ¬Chain next none u := fun h => nomatch h

theorem chain_some : Chain next (some t) u ↔ u = t ∨ Chain next (next t) u := by
  constructor
  · intro h
    cases h with
    | here => exact Or.inl rfl
    | later h => exact Or.inr h
  · rintro (rfl | h)
    · exact .here _
    · exact .later h

/-- Successors that agree on what one of them reaches reach the same. -/
theorem Chain.congr (h : Chain next first u) (hsame : ∀ v, Chain next first v → next v = next' v) :
    Chain next' first u := by
  induction h with
  | here t => exact .here t
  | @later t u h ih =>
    have hnext : next t = next' t := hsame t (.here t)
    refine .later (hnext ▸ ih fun v hv => hsame v (.later hv))

theorem chain_congr (hsame : ∀ v, Chain next first v → next v = next' v) :
    Chain next first u ↔ Chain next' first u := by
  refine ⟨fun h => h.congr hsame, fun h => ?_⟩
  induction h with
  | here t => exact .here t
  | @later t u h ih =>
    have hnext : next t = next' t := hsame t (.here t)
    refine .later (hnext ▸ ih fun v hv => hsame v (.later (hnext ▸ hv)))

variable [LinearOrder τ]

theorem Chain.le (h : Chain next first u) (hadv : Advances next) : ∀ t ∈ first, t ≤ u := by
  induction h with
  | here t =>
    rintro _ ⟨⟩
    exact le_rfl
  | @later t u h ih =>
    rintro _ ⟨⟩
    cases hnext : next t with
    | none =>
      rw [hnext] at h
      exact absurd h not_chain_none
    | some v => exact (hadv t v hnext).le.trans (ih v hnext)

theorem Chain.lt (h : Chain next (next t) u) (hadv : Advances next) : t < u := by
  cases hnext : next t with
  | none =>
    rw [hnext] at h
    exact absurd h not_chain_none
  | some v => exact lt_of_lt_of_le (hadv t v hnext) (h.le hadv v hnext)

/-- After an element that is reached comes what is reached above it. -/
theorem Chain.after (hv : Chain next first v) (hadv : Advances next) :
    Chain next (next v) u ↔ Chain next first u ∧ v < u := by
  induction hv with
  | here t =>
    rw [chain_some]
    constructor
    · exact fun h => ⟨Or.inr h, h.lt hadv⟩
    · rintro ⟨rfl | h, hlt⟩
      · exact absurd hlt (lt_irrefl _)
      · exact h
  | @later t v h ih =>
    rw [ih, chain_some]
    constructor
    · exact fun hu => ⟨Or.inr hu.1, hu.2⟩
    · rintro ⟨rfl | hu, hlt⟩
      · exact absurd (hlt.trans (h.lt hadv)) (lt_irrefl _)
      · exact ⟨hu, hlt⟩

end Chain

end Dsl41.Infra
