import Dsl41.Infra.Custody
import Dsl41.Store.Writes
import Mathlib.Tactic.Ring

/-!
# The account of the reserved units

Each vector that a start recorded is followed through the calls that move it. The account has every
reservation in one place: on its row, freed, or spent. The rows hold what the account says they hold, and
the units spent are the ones the owner counts as consumed.

* `CapacityCall`, `custodyAfter` — the calls, and the account of a sequence of them
* `CapacityCall.returns`, `CapacityCall.raises` — what one call does to the rows and the spent units
* `capacity_account` — the account of every sequence
-/

namespace Dsl41.Store

open Dsl41.Infra Dsl41.Infra.Effect
open RuntimeState

variable {τ ω : Type} [LinearOrder τ] {s s' : RuntimeState τ ω} {job : String} {α : Type}

/-! ## Where a unit goes -/

/-- A run's end: what the policy frees, what stays held, and the rest, which is spent. -/
def placeOf (success : Bool) (keepsHeld : Option (String → Bool)) (r : CapacityReservation) : Place :=
  if r.releasePolicy = .completion ∨ (r.releasePolicy = .success ∧ success) then .freed
  else if keepsHeld.any (· r.bucket) then .held
  else .spent

theorem unreleased_eq (success : Bool) (keepsHeld : Option (String → Bool)) : ∀ l : List CapacityReservation,
    unreleased success keepsHeld l =
      (l.filter (placeOf success keepsHeld · = .held), l.filter (placeOf success keepsHeld · = .spent))
  | [] => rfl
  | r :: l => by
    rw [unreleased, unreleased_eq success keepsHeld l]
    by_cases hfree : r.releasePolicy = .completion ∨ (r.releasePolicy = .success ∧ success)
    · simp [placeOf, hfree]
    · by_cases hkeep : keepsHeld.any (· r.bucket)
      · simp [placeOf, hfree, hkeep]
      · simp [placeOf, hfree, hkeep]

/-- The units of a bucket in some reservations. -/
def unitsIn (bucket : String) (l : List CapacityReservation) : Nat :=
  ((l.filter (·.bucket = bucket)).map (·.units)).sum

/-- The units of a bucket that are consumed. -/
def RuntimeState.spentUnits (s : RuntimeState τ ω) (bucket : String) : Int := (s.consumed.get? bucket).getD 0

theorem spent_fold (bucket : String) : ∀ (l : List CapacityReservation) (consumed : Dict String Int),
    ((l.foldl spend consumed).get? bucket).getD 0 = (consumed.get? bucket).getD 0 + unitsIn bucket l
  | [], consumed => by simp [unitsIn]
  | r :: l, consumed => by
    rw [List.foldl_cons, spent_fold bucket l, spend, Dict.get?_set]
    by_cases h : bucket = r.bucket
    · have hcons : unitsIn bucket (r :: l) = r.units + unitsIn bucket l := by
        rw [unitsIn, List.filter_cons_of_pos (by simpa using h.symm)]
        rfl
      rw [if_pos h, hcons, Option.getD_some, h]
      push_cast
      ring
    · have hcons : unitsIn bucket (r :: l) = unitsIn bucket l := by
        rw [unitsIn, List.filter_cons_of_neg (by simpa using Ne.symm h)]
        rfl
      rw [if_neg h, hcons]

theorem unitsIn_append (bucket : String) (l l' : List CapacityReservation) :
    unitsIn bucket (l ++ l') = unitsIn bucket l + unitsIn bucket l' := by
  simp [unitsIn]

/-! ## The calls -/

/-- The calls that move reserved units. -/
inductive CapacityCall where
  | reserve (job : String) (reservations : List CapacityReservation)
  | takeOverHeld (job : String) (reservations : List CapacityReservation)
  | releaseReservations (job : String) (newStatus : JobStatus) (keepsHeld : Option (String → Bool))
  | releaseHeld (job : String)
  | retireJob (job : String) (keepsHeld : Option (String → Bool))

def CapacityCall.verb : CapacityCall → Verb τ ω
  | reserve job reservations => .reserve job reservations
  | takeOverHeld job reservations => .takeOverHeld job reservations
  | releaseReservations job newStatus keepsHeld => .releaseReservations job newStatus keepsHeld
  | releaseHeld job => .releaseHeld job
  | retireJob job keepsHeld => .retireJob job keepsHeld

def RuntimeState.afterCalls (s : RuntimeState τ ω) (calls : List CapacityCall) : RuntimeState τ ω :=
  runVerbs s (calls.map (·.verb))

/-- What a call that returns spends: what the policy of a run's end does not free and `keeps_held` does
not keep. -/
def CapacityCall.spends (s : RuntimeState τ ω) : CapacityCall → List CapacityReservation
  | releaseReservations job newStatus keepsHeld =>
    (s.row job).reservations.filter (placeOf (newStatus = .success) keepsHeld · = .spent)
  | retireJob job keepsHeld =>
    if (s.row job).status.live then (s.row job).reservations.filter (placeOf false keepsHeld · = .spent) else []
  | _ => []

/-- What a call that returns does to the account. A take-over and an end of the row free what the row
still holds. -/
def CapacityCall.move (s : RuntimeState τ ω) (c : Custody String CapacityReservation) :
    CapacityCall → Custody String CapacityReservation
  | reserve job reservations => c.record job reservations
  | takeOverHeld job reservations => (c.settle job fun _ => .freed).record job reservations
  | releaseReservations job newStatus keepsHeld => c.settle job (placeOf (newStatus = .success) keepsHeld)
  | releaseHeld job => c.settle job fun _ => .freed
  | retireJob job keepsHeld =>
    (if (s.row job).status.live then c.settle job (placeOf false keepsHeld) else c).settle job fun _ => .freed

/-- The account after a sequence of calls; one that raises moves nothing. -/
def custodyAfter (s : RuntimeState τ ω) (c : Custody String CapacityReservation) :
    List CapacityCall → Custody String CapacityReservation
  | [] => c
  | call :: calls =>
    custodyAfter (call.verb.call.after s) (match call.verb.call.result s with
      | .ok _ => call.move s c
      | .error _ => c) calls

/-- The account of what the rows hold. -/
def RuntimeState.opening (s : RuntimeState τ ω) : Custody String CapacityReservation :=
  s.jobs.entries.foldl (fun c e => c.record e.1 e.2.reservations) {}

/-! ## What a call does -/

/-- No row and no spent unit differs. -/
def SameUnits (s s' : RuntimeState τ ω) : Prop := (∀ job, s'.row job = s.row job) ∧ s'.consumed = s.consumed

theorem Still.sameUnits (h : Still s s') : SameUnits s s' := ⟨h.row, h.consumed⟩

/-- The rows hold what they held, but for one that holds a list; some reservations are spent. -/
structure Moves (s s' : RuntimeState τ ω) (job : String) (left spent : List CapacityReservation) : Prop where
  row : (s'.row job).reservations = left
  others : ∀ x, x ≠ job → (s'.row x).reservations = (s.row x).reservations
  spent : s'.consumed = spent.foldl spend s.consumed

variable {P : RuntimeState τ ω → Prop} {s₀ : RuntimeState τ ω}

/-- The row is read, and the rest runs where nothing differs. -/
theorem ends_runtime_bind {g : JobRuntime τ → RuntimeM τ ω α} (hs : Still s₀ s)
    (hg : ∀ s₁, Still s₀ s₁ → Ends (g (s₀.row job)) s₁ P (SameUnits s₀)) :
    Ends (runtime job >>= g) s P (SameUnits s₀) := by
  have hr : Still s₀ ((runtime job).after s) := hs.trans still_runtime
  refine Ends.bind (R := fun _ => True) ?_ fun row hrow _ => ?_
  · unfold Ends
    split
    · trivial
    · exact hr.sameUnits
  · rw [runtime_result hrow, hs.row]
    exact hg _ hr

/-- A write that returns is the row's alone. -/
theorem ends_replace {f : JobRuntime τ → JobRuntime τ} (hs : Still s₀ s)
    (h : ∀ s₁, Still s₀ s₁ → P { s₁ with jobs := s₁.jobs.set job (f (s₀.row job)) }) :
    Ends (replace job f : RuntimeM τ ω _) s P (SameUnits s₀) := by
  refine Ends.bind (R := Still s₀) (hs.trans (still_touch _)) fun _ _ ht => ?_
  exact ends_runtime_bind ht fun s₁ h₁ => ends_modify (h s₁ h₁)

/-- What holds of the units where a row is set. -/
theorem Still.moves {s₁ : RuntimeState τ ω} (h : Still s s₁) (row : JobRuntime τ) (spent : List CapacityReservation) :
    Moves s { s₁ with jobs := s₁.jobs.set job row, consumed := spent.foldl spend s₁.consumed } job
      row.reservations spent where
  row := by
    rw [RuntimeState.row, Dict.get?_set, if_pos rfl]
    rfl
  others x hx := by
    rw [← h.row x, RuntimeState.row, Dict.get?_set, if_neg hx]
    rfl
  spent := by rw [← h.consumed]

theorem ends_reserve (job : String) (l : List CapacityReservation) :
    Ends (reserve job l) s (fun s' => (s.row job).reservations = [] ∧ Moves s s' job l []) (SameUnits s) := by
  refine ends_runtime_bind (.refl s) fun s₁ h₁ => ?_
  dsimp only
  split
  · exact ends_throw h₁.sameUnits
  · next hempty => exact ends_replace h₁ fun s₂ h₂ => ⟨not_not.mp hempty, h₂.moves _ []⟩

theorem ends_takeOverHeld (job : String) (l : List CapacityReservation) :
    Ends (takeOverHeld job l) s (fun s' => Moves s s' job l []) (SameUnits s) := by
  refine ends_runtime_bind (.refl s) fun s₁ h₁ => ?_
  dsimp only
  split
  · exact ends_throw h₁.sameUnits
  · exact ends_replace h₁ fun s₂ h₂ => h₂.moves _ []

theorem ends_releaseHeld (job : String) :
    Ends (releaseHeld job) s (fun s' => Moves s s' job [] []) (SameUnits s) := by
  refine ends_runtime_bind (.refl s) fun s₁ h₁ => ?_
  dsimp only
  split
  · exact ends_throw h₁.sameUnits
  · refine Ends.bind (R := fun s' => Moves s s' job [] []) (ends_replace h₁ fun s₂ h₂ => ?_) fun _ _ hmoves => ?_
    · exact h₂.moves _ []
    · exact ends_pure hmoves

theorem ends_releaseReservations (job : String) (status : JobStatus) (keepsHeld : Option (String → Bool)) :
    Ends (releaseReservations job status keepsHeld) s
      (fun s' => Moves s s' job ((s.row job).reservations.filter (placeOf (status = .success) keepsHeld · = .held))
        ((s.row job).reservations.filter (placeOf (status = .success) keepsHeld · = .spent))) (SameUnits s) := by
  refine ends_runtime_bind (.refl s) fun s₁ h₁ => ?_
  dsimp only
  split
  · rw [unreleased_eq]
    refine Ends.bind (R := fun s' => ∃ s₂ row, Still s s₂ ∧ s' = { s₂ with jobs := s₂.jobs.set job row } ∧
      row.reservations = (s.row job).reservations.filter (placeOf (status = .success) keepsHeld · = .held))
      (ends_replace h₁ fun s₂ h₂ => ⟨s₂, _, h₂, rfl, rfl⟩) fun _ _ hwritten => ?_
    obtain ⟨s₂, row, h₂, hwritten, hleft⟩ := hwritten
    rw [hwritten, ← hleft]
    exact ends_modify (h₂.moves row _)
  · next hempty =>
    rw [not_not.mp hempty]
    refine ends_pure ⟨?_, fun x _ => by rw [h₁.row], h₁.consumed⟩
    rw [h₁.row, not_not.mp hempty]
    rfl

/-- The end of a row: a live run's units are settled, and the row is gone. -/
theorem ends_retireJob (job : String) (keepsHeld : Option (String → Bool)) :
    Ends (retireJob job keepsHeld) s
      (fun s' => Moves s s' job [] ((CapacityCall.retireJob job keepsHeld).spends s)) (SameUnits s) := by
  have hsame : SameUnits s s := (Still.refl s).sameUnits
  refine Ends.bind (R := fun s' => s' = s) ?_ fun _ _ hguard => ?_
  · refine ends_get_bind ?_
    split
    · exact ends_throw hsame
    · exact ends_pure rfl
  rw [hguard]
  refine ends_get_bind ?_
  dsimp only
  split
  · exact ends_throw hsame
  · next row hrow =>
    have hread : s.row job = row := by
      rw [RuntimeState.row, hrow]
      rfl
    refine Ends.bind (R := fun s' => Moves s s' job (s'.row job).reservations
      ((CapacityCall.retireJob job keepsHeld).spends s)) ?_ fun _ _ hsettled => ?_
    · rw [settleLive, CapacityCall.spends, hread]
      split
      · have hrelease := ends_releaseReservations (s := s) job .terminated keepsHeld
        rw [hread] at hrelease
        unfold Ends at hrelease ⊢
        split
        · next hresult =>
          rw [hresult] at hrelease
          exact ⟨rfl, hrelease.others, hrelease.spent⟩
        · next hresult =>
          rw [hresult] at hrelease
          exact hrelease
      · exact ends_pure ⟨rfl, fun _ _ => rfl, rfl⟩
    · refine ends_get_bind ?_
      refine Ends.bind (R := fun s' => Moves s s' job [] ((CapacityCall.retireJob job keepsHeld).spends s))
        (ends_modify ⟨?_, fun x hx => ?_, hsettled.spent⟩) fun _ _ hmoves => ends_pure hmoves
      · rw [RuntimeState.row, Dict.get?_erase, if_pos rfl]
        rfl
      · rw [← hsettled.others x hx, RuntimeState.row, Dict.get?_erase, if_neg hx]
        rfl

/-! ## One call -/

namespace CapacityCall

def holder : CapacityCall → String
  | reserve job _ | takeOverHeld job _ | releaseReservations job _ _ | releaseHeld job | retireJob job _ => job

/-- What a call that returns leaves on the row of its job. -/
def leaves (s : RuntimeState τ ω) : CapacityCall → List CapacityReservation
  | reserve _ reservations => reservations
  | takeOverHeld _ reservations => reservations
  | releaseReservations job newStatus keepsHeld =>
    (s.row job).reservations.filter (placeOf (newStatus = .success) keepsHeld · = .held)
  | _ => []

/-- A start records its vector on a row that holds none. -/
def Starts (s : RuntimeState τ ω) : CapacityCall → Prop
  | reserve job _ => (s.row job).reservations = []
  | _ => True

theorem ends (call : CapacityCall) : Ends call.verb.call s
    (fun s' => call.Starts s ∧ Moves s s' call.holder (call.leaves s) (call.spends s)) (SameUnits s) := by
  cases call with
  | reserve job l => exact ends_reserve job l
  | takeOverHeld job l =>
    exact Ends.mono (ends_takeOverHeld job l) fun s' h => ⟨trivial, h⟩
  | releaseReservations job status keepsHeld =>
    exact Ends.mono (ends_releaseReservations job status keepsHeld) fun s' h => ⟨trivial, h⟩
  | releaseHeld job => exact Ends.bind (ends_releaseHeld job) fun _ _ h => ends_pure ⟨trivial, h⟩
  | retireJob job keepsHeld =>
    exact Ends.bind (ends_retireJob job keepsHeld) fun _ _ h => ends_pure ⟨trivial, h⟩

end CapacityCall

/-! ## The account -/

variable {c : Custody String CapacityReservation} {call : CapacityCall}

/-- The account and the rows agree on what is held. -/
def Backed (s : RuntimeState τ ω) (c : Custody String CapacityReservation) : Prop :=
  ∀ job, (c.held job).map Prod.fst = (s.row job).reservations

theorem sent_fst (p : Place) (place : CapacityReservation → Place) (l : List (CapacityReservation × Nat)) :
    (Custody.sent p place l).map Prod.fst = (l.map Prod.fst).filter (place · = p) := by
  rw [Custody.sent, List.filter_map]
  rfl

theorem move_sound (s : RuntimeState τ ω) (call : CapacityCall) (h : c.Sound) : (call.move s c).Sound := by
  cases call with
  | reserve job l => exact h.record job l
  | takeOverHeld job l => exact (h.settle job _).record job l
  | releaseReservations job status keepsHeld => exact h.settle job _
  | releaseHeld job => exact h.settle job _
  | retireJob job keepsHeld =>
    rw [CapacityCall.move]
    split
    · exact (h.settle job _).settle job _
    · exact h.settle job _

theorem sent_freed (p : Place) (hp : p ≠ .freed) (l : List (CapacityReservation × Nat)) :
    Custody.sent p (fun _ => .freed) l = [] :=
  List.filter_eq_nil_iff.mpr fun _ _ h => hp (of_decide_eq_true h).symm

/-- What a settlement of a row leaves held and adds to the spent. -/
theorem settle_fst (hback : Backed s c) (job : String) (place : CapacityReservation → Place) :
    (((c.settle job place).held job).map Prod.fst = (s.row job).reservations.filter (place · = .held)) ∧
      (c.settle job place).spent.map Prod.fst =
        c.spent.map Prod.fst ++ (s.row job).reservations.filter (place · = .spent) := by
  refine ⟨?_, ?_⟩
  · rw [Custody.settle_held, if_pos rfl, sent_fst, hback]
  · rw [Custody.settle, List.map_append, sent_fst, hback]

/-- Freeing a row leaves nothing held on it and spends nothing. -/
theorem settle_free (c : Custody String CapacityReservation) (job : String) :
    (c.settle job fun _ => .freed).held job = [] ∧ (c.settle job fun _ => .freed).spent = c.spent := by
  refine ⟨?_, ?_⟩
  · rw [Custody.settle_held, if_pos rfl, sent_freed .held (by decide)]
  · rw [Custody.settle, sent_freed .spent (by decide), List.append_nil]

theorem move_others (s : RuntimeState τ ω) {x : String} (hx : x ≠ call.holder) : (call.move s c).held x = c.held x := by
  cases call with
  | reserve job l => exact (Custody.record_held x).trans (if_neg hx)
  | takeOverHeld job l =>
    exact (Custody.record_held x).trans ((if_neg hx).trans ((Custody.settle_held x).trans (if_neg hx)))
  | releaseReservations job status keepsHeld => exact (Custody.settle_held x).trans (if_neg hx)
  | releaseHeld job => exact (Custody.settle_held x).trans (if_neg hx)
  | retireJob job keepsHeld =>
    rw [CapacityCall.move]
    refine (Custody.settle_held x).trans ((if_neg hx).trans ?_)
    split
    · exact (Custody.settle_held x).trans (if_neg hx)
    · rfl

theorem move_held (hback : Backed s c) (hstart : call.Starts s) :
    ((call.move s c).held call.holder).map Prod.fst = call.leaves s := by
  cases call with
  | reserve job l =>
    have hempty : c.held job = [] := List.map_eq_nil_iff.mp ((hback job).trans hstart)
    rw [CapacityCall.move, CapacityCall.holder, Custody.record_held, if_pos rfl, hempty, List.nil_append]
    exact List.zipIdx_map_fst _ _
  | takeOverHeld job l =>
    rw [CapacityCall.move, CapacityCall.holder, Custody.record_held, if_pos rfl, (settle_free c job).1,
      List.nil_append]
    exact List.zipIdx_map_fst _ _
  | releaseReservations job status keepsHeld => exact (settle_fst hback job _).1
  | releaseHeld job => exact congrArg (List.map Prod.fst) (settle_free c job).1
  | retireJob job keepsHeld => exact congrArg (List.map Prod.fst) (settle_free _ job).1

theorem move_spent (hback : Backed s c) :
    (call.move s c).spent.map Prod.fst = c.spent.map Prod.fst ++ call.spends s := by
  cases call with
  | reserve job l => exact (List.append_nil _).symm
  | takeOverHeld job l =>
    refine Eq.trans ?_ (List.append_nil _).symm
    exact congrArg (List.map Prod.fst) (settle_free c job).2
  | releaseReservations job status keepsHeld => exact (settle_fst hback job _).2
  | releaseHeld job =>
    refine Eq.trans ?_ (List.append_nil _).symm
    exact congrArg (List.map Prod.fst) (settle_free c job).2
  | retireJob job keepsHeld =>
    rw [CapacityCall.move, (settle_free _ job).2, CapacityCall.spends]
    split
    · exact (settle_fst hback job _).2
    · exact (List.append_nil _).symm

/-! ## The opening account -/

omit [LinearOrder τ] in
theorem fold_record_sound : ∀ (l : List (String × JobRuntime τ)) {c : Custody String CapacityReservation}, c.Sound →
    (l.foldl (fun c e => c.record e.1 e.2.reservations) c).Sound
  | [], _, h => h
  | e :: l, _, h => fold_record_sound l (h.record e.1 e.2.reservations)

omit [LinearOrder τ] in
theorem fold_record_held (job : String) : ∀ (l : List (String × JobRuntime τ)) {c : Custody String CapacityReservation},
    (l.map Prod.fst).Nodup →
    ((l.foldl (fun c e => c.record e.1 e.2.reservations) c).held job).map Prod.fst =
      (c.held job).map Prod.fst ++ ((Dict.getIn job l).getD {}).reservations
  | [], c, _ => (List.append_nil _).symm
  | e :: l, c, h => by
    obtain ⟨hout, hnodup⟩ := List.nodup_cons.mp h
    rw [List.foldl_cons, fold_record_held job l hnodup, Custody.record_held, Dict.getIn]
    by_cases hjob : job = e.1
    · have hnone : Dict.getIn job l = none := by
        refine Option.eq_none_iff_forall_ne_some.mpr fun row hrow => hout ?_
        have hmem := (Dict.getIn_eq_some hnodup).mp hrow
        exact List.mem_map.mpr ⟨(job, row), hmem, hjob⟩
      rw [if_pos hjob, if_pos hjob.symm, hnone, List.map_append, List.zipIdx_map_fst, hjob]
      exact List.append_nil _
    · rw [if_neg hjob, if_neg (Ne.symm hjob)]

omit [LinearOrder τ] in
theorem opening_spent : ∀ (l : List (String × JobRuntime τ)) (c : Custody String CapacityReservation),
    (l.foldl (fun c e => c.record e.1 e.2.reservations) c).spent = c.spent
  | [], _ => rfl
  | _ :: l, _ => opening_spent l _

theorem opening_backed (s : RuntimeState τ ω) : Backed s s.opening := fun job =>
  fold_record_held job s.jobs.entries s.jobs.nodup

/-! ## A sequence of calls -/

theorem unitsIn_fold (bucket : String) (h : s'.consumed = (call.spends s).foldl spend s.consumed) :
    s'.spentUnits bucket = s.spentUnits bucket + unitsIn bucket (call.spends s) := by
  rw [spentUnits, h, spent_fold bucket]
  rfl

/-- What one call does to the account, the rows and the spent units. -/
theorem call_step (call : CapacityCall) (hsound : c.Sound) (hback : Backed s c) :
    let c' := match call.verb.call.result s with
      | .ok _ => call.move s c
      | .error _ => c
    let s' := call.verb.call.after s
    c'.Sound ∧ Backed s' c' ∧ ∀ bucket, s'.spentUnits bucket + unitsIn bucket (c.spent.map Prod.fst) =
      s.spentUnits bucket + unitsIn bucket (c'.spent.map Prod.fst) := by
  have hends := call.ends (s := s)
  unfold Ends at hends
  dsimp only
  split
  · next hresult =>
    rw [hresult] at hends
    obtain ⟨hstart, hmoves⟩ := hends
    refine ⟨move_sound s call hsound, fun x => ?_, fun bucket => ?_⟩
    · by_cases hx : x = call.holder
      · rw [hx, move_held hback hstart, hmoves.row]
      · rw [move_others s hx, hback, hmoves.others x hx]
    · rw [unitsIn_fold bucket hmoves.spent, move_spent hback, unitsIn_append]
      push_cast
      ring
  · next hresult =>
    rw [hresult] at hends
    refine ⟨hsound, fun x => ?_, fun bucket => ?_⟩
    · rw [hback, hends.1]
    · rw [spentUnits, hends.2]
      rfl

theorem calls_run : ∀ (calls : List CapacityCall) {s : RuntimeState τ ω} {c : Custody String CapacityReservation},
    c.Sound → Backed s c →
    (custodyAfter s c calls).Sound ∧ Backed (s.afterCalls calls) (custodyAfter s c calls) ∧
      ∀ bucket, (s.afterCalls calls).spentUnits bucket + unitsIn bucket (c.spent.map Prod.fst) =
        s.spentUnits bucket + unitsIn bucket ((custodyAfter s c calls).spent.map Prod.fst)
  | [], _, _, hsound, hback => ⟨hsound, hback, fun _ => rfl⟩
  | call :: calls, s, c, hsound, hback => by
    obtain ⟨hsound', hback', hspent⟩ := call_step call hsound hback
    obtain ⟨hsound'', hback'', hspent'⟩ := calls_run calls hsound' hback'
    refine ⟨hsound'', hback'', fun bucket => ?_⟩
    have hfirst := hspent bucket
    have hrest := hspent' bucket
    have hstate : s.afterCalls (call :: calls) = (call.verb.call.after s).afterCalls calls := rfl
    rw [hstate, custodyAfter]
    omega

/-- **Each unit that a start recorded is still on its row, or was freed, or was spent, and only one of
them.** The spent ones are what was consumed since; a call that raises moves nothing. -/
theorem capacity_account (s : RuntimeState τ ω) (calls : List CapacityCall) :
    let c := custodyAfter s s.opening calls
    c.Sound ∧ (∀ job, (c.held job).map Prod.fst = ((s.afterCalls calls).row job).reservations) ∧
    (∀ bucket, (s.afterCalls calls).spentUnits bucket = s.spentUnits bucket + unitsIn bucket (c.spent.map Prod.fst)) ∧
    ∀ before call after, calls = before ++ call :: after →
      let t := s.afterCalls before
      let t' := call.verb.call.after t
      match call.verb.call.result t with
      | .ok _ => ∀ bucket, t.spentUnits bucket ≤ t'.spentUnits bucket ∧
          t'.spentUnits bucket = t.spentUnits bucket + unitsIn bucket (call.spends t)
      | .error _ => (∀ job, t'.row job = t.row job) ∧ t'.consumed = t.consumed := by
  have hopening : s.opening.Sound := fold_record_sound _ Custody.sound_empty
  obtain ⟨hsound, hback, hspent⟩ := calls_run calls hopening (opening_backed s)
  refine ⟨hsound, hback, fun bucket => ?_, fun before call after _ => ?_⟩
  · have hnone : s.opening.spent = [] := opening_spent _ _
    have h := hspent bucket
    rw [hnone] at h
    exact (Int.add_zero _).symm.trans h
  · have hends := call.ends (s := s.afterCalls before)
    unfold Ends at hends
    dsimp only
    split
    · next hresult =>
      rw [hresult] at hends
      intro bucket
      have hunits := unitsIn_fold bucket hends.2.spent
      exact ⟨by omega, hunits⟩
    · next hresult =>
      rw [hresult] at hends
      exact hends

end Dsl41.Store
