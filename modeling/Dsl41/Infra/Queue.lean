import Mathlib.Data.List.Basic

/-!
# A queue that is emptied

The loop takes the front item of a queue; a turn changes a state and puts items at the back. A turn that
uses up as much of a measure as it queues cannot go on forever.

* `drain_run` — what every turn keeps holds when the queue is empty
* `drain_ends` — a fuel above the measure and the queue lasts
-/

namespace Dsl41.Infra

variable {σ ι : Type*} (turn : ι → σ → σ × List ι)

/-- The state when the queue is empty; none when the fuel does not last. -/
def drain : Nat → σ → List ι → Option σ
  | 0, _, _ => none
  | _ + 1, s, [] => some s
  | fuel + 1, s, item :: queue => drain fuel (turn item s).1 (queue ++ (turn item s).2)

variable {turn} {P : σ → List ι → Prop} {s t : σ} {queue : List ι}

theorem drain_run (hturn : ∀ s item queue, P s (item :: queue) → P (turn item s).1 (queue ++ (turn item s).2)) :
    ∀ {fuel : Nat} {s t : σ} {queue : List ι}, P s queue → drain turn fuel s queue = some t → P t []
  | 0, _, _, _, _, hrun => nomatch hrun
  | _ + 1, _, _, [], h, hrun => Option.some.inj hrun ▸ h
  | _ + 1, s, _, item :: queue, h, hrun => drain_run hturn (hturn s item queue h) hrun

theorem drain_ends {m : σ → Nat}
    (hturn : ∀ s item queue, P s (item :: queue) → P (turn item s).1 (queue ++ (turn item s).2))
    (hmeasure : ∀ s item queue, P s (item :: queue) → m (turn item s).1 + (turn item s).2.length ≤ m s) :
    ∀ {fuel : Nat} {s : σ} {queue : List ι}, P s queue → m s + queue.length < fuel →
      ∃ t, drain turn fuel s queue = some t
  | 0, _, _, _, hfuel => absurd hfuel (Nat.not_lt_zero _)
  | _ + 1, s, [], _, _ => ⟨s, rfl⟩
  | fuel + 1, s, item :: queue, h, hfuel => by
    have hless := hmeasure s item queue h
    rw [List.length_cons] at hfuel
    have hrest : m (turn item s).1 + (queue ++ (turn item s).2).length < fuel := by
      rw [List.length_append]
      omega
    have hends : ∃ t, drain turn fuel (turn item s).1 (queue ++ (turn item s).2) = some t :=
      drain_ends hturn hmeasure (hturn s item queue h) hrest
    exact hends

/-- More fuel ends the same way. -/
theorem drain_mono : ∀ (fuel fuel' : Nat) {s : σ} {queue : List ι}, drain turn fuel s queue = some t → fuel ≤ fuel' →
    drain turn fuel' s queue = some t
  | 0, _, _, _, hrun, _ => nomatch hrun
  | fuel + 1, fuel' + 1, s, [], hrun, _ => hrun
  | fuel + 1, fuel' + 1, s, item :: queue, hrun, hle => by
    have hrest : drain turn fuel (turn item s).1 (queue ++ (turn item s).2) = some t := hrun
    exact drain_mono fuel fuel' hrest (Nat.le_of_succ_le_succ hle)

end Dsl41.Infra
