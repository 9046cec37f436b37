import Dsl41.Infra.Dict

/-!
# Finding what changed by copying on first touch

A transaction over a keyed store keeps the old value of a key the first time it is about to write
it. At the end it compares the kept values with the store's. `Tracks` is the invariant that makes
this comparison find exactly the keys whose value moved, a write that was undone not among them.
-/

namespace Dsl41.Infra

variable {κ υ : Type} [DecidableEq κ]

/-- The kept values are the first ones, and a key with none kept has not moved. -/
def Tracks (before now : κ → υ) (saved : Dict κ υ) : Prop :=
  ∀ k, (∀ v, saved.get? k = some v → v = before k) ∧
    (saved.get? k = none → now k = before k)

/-- The keys whose kept value is not the store's. -/
def moved [DecidableEq υ] (now : κ → υ) (saved : Dict κ υ) : List κ :=
  (saved.entries.filter fun e => now e.1 ≠ e.2).map Prod.fst

variable {before now later : κ → υ} {saved : Dict κ υ} {k : κ}

theorem Tracks.start : Tracks before before (∅ : Dict κ υ) := fun _ => ⟨nofun, fun _ => rfl⟩

/-- Keeping a key's value before its first write. -/
theorem Tracks.touch (h : Tracks before now saved) (hk : saved.get? k = none) :
    Tracks before now (saved.set k (now k)) := by
  intro x
  by_cases hx : x = k
  · subst hx
    simpa using (h x).2 hk
  · simpa only [Dict.get?_set_ne hx] using h x

/-- A write that leaves every key with no kept value alone. -/
theorem Tracks.write (h : Tracks before now saved)
    (hw : ∀ x, saved.get? x = none → later x = now x) : Tracks before later saved :=
  fun x => ⟨(h x).1, fun hx => (hw x hx).trans ((h x).2 hx)⟩

variable [DecidableEq υ]

theorem mem_moved (h : Tracks before now saved) : k ∈ moved now saved ↔ now k ≠ before k := by
  have hmem : k ∈ moved now saved ↔ ∃ v, saved.get? k = some v ∧ now k ≠ v := by
    simp [moved, Dict.get?_eq_some]
  rw [hmem]
  constructor
  · rintro ⟨v, hv, hne⟩
    rwa [← (h k).1 v hv]
  · intro hne
    obtain hk | ⟨v, hv⟩ := (saved.get? k).eq_none_or_eq_some
    · exact absurd ((h k).2 hk) hne
    · exact ⟨v, hv, (h k).1 v hv ▸ hne⟩

omit [DecidableEq κ] in
theorem moved_nodup : (moved now saved).Nodup :=
  saved.nodup.sublist (List.Sublist.map Prod.fst List.filter_sublist)

end Dsl41.Infra
