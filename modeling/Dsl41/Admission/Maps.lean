import Dsl41.Admission.Index

/-!
# What the maps describe

The three maps and the open instances of a decision index describe the attempts in flight and the
decisions taken, each id once. Every operation keeps that, and a lookup reads it.
-/

namespace Dsl41.Admission

open Infra Infra.Effect StateMachine

variable {index : DecisionIndex} {inFlight : List Attempt} {decided : List (String × ApplyResult)}
  {a : Attempt} {result : ApplyResult} {id text : String} {below : Nat}

/-- The index holds the attempts in flight and the decisions, each with the fingerprint of its
attempt and in the order of their indexes, and nothing else. -/
structure Describes (index : DecisionIndex) (inFlight : List Attempt)
    (decided : List (String × ApplyResult)) : Prop where
  idle : Idle index.machines
  distinct : (inFlight.map Attempt.request_id ++ decided.map (·.2.request_id)).Nodup
  ordered : decided.Pairwise fun d d' => d.2.index < d'.2.index
  open_waits : ∀ a ∈ inFlight, ∃ inst, index.machines.records.instances a.request_id = some inst ∧ Waiting inst a
  waits_open : ∀ id inst, index.machines.records.instances id = some inst →
    ∃ a ∈ inFlight, a.request_id = id
  results : ∀ id r, index.results.get? id = some r ↔ ∃ d ∈ decided, d.2 = r ∧ r.request_id = id
  by_index : index.by_index.entries = decided.map fun d => (d.2.index, d.2)
  fingerprints : ∀ id text, index.fingerprints.get? id = some text ↔
    (∃ a ∈ inFlight, a.request_id = id ∧ a.fingerprint = text) ∨
      ∃ d ∈ decided, d.2.request_id = id ∧ d.1 = text

/-- Nothing is admitted under the id. -/
def Unseen (inFlight : List Attempt) (decided : List (String × ApplyResult)) (id : String) : Prop :=
  (∀ a ∈ inFlight, a.request_id ≠ id) ∧ ∀ d ∈ decided, d.2.request_id ≠ id

theorem describes_empty : Describes {} [] [] where
  idle := ⟨rfl, rfl, rfl⟩
  distinct := List.nodup_nil
  ordered := .nil
  open_waits a ha := absurd ha List.not_mem_nil
  waits_open id inst h := nomatch h
  results id r := by simp
  by_index := rfl
  fingerprints id text := by simp

/-! ## Reading the maps -/

theorem Describes.unseen (h : Describes index inFlight decided) :
    index.fingerprints.get? id = none ↔ Unseen inFlight decided id := by
  constructor
  · intro hnone
    constructor
    · intro a ha hid
      have hsome := (h.fingerprints id a.fingerprint).mpr (Or.inl ⟨a, ha, hid, rfl⟩)
      rw [hnone] at hsome
      cases hsome
    · intro d hd hid
      have hsome := (h.fingerprints id d.1).mpr (Or.inr ⟨d, hd, hid, rfl⟩)
      rw [hnone] at hsome
      cases hsome
  · rintro ⟨hopen, hdecided⟩
    cases hseen : index.fingerprints.get? id with
    | none => rfl
    | some text =>
      rcases (h.fingerprints id text).mp hseen with ⟨a, ha, hid, -⟩ | ⟨d, hd, hid, -⟩
      · exact absurd hid (hopen a ha)
      · exact absurd hid (hdecided d hd)

theorem Describes.result_none (h : Describes index inFlight decided)
    (hdecided : ∀ d ∈ decided, d.2.request_id ≠ id) : index.results.get? id = none := by
  cases hr : index.results.get? id with
  | none => rfl
  | some r =>
    obtain ⟨d, hd, rfl, hid⟩ := (h.results id r).mp hr
    exact absurd hid (hdecided d hd)

/-- An id in flight has no decision. -/
theorem Describes.open_undecided (h : Describes index inFlight decided) (ha : a ∈ inFlight) :
    ∀ d ∈ decided, d.2.request_id ≠ a.request_id := by
  intro d hd heq
  exact (List.nodup_append.mp h.distinct).2.2 _ (List.mem_map_of_mem ha) _ (List.mem_map_of_mem hd) heq.symm

theorem Describes.instances_none (h : Describes index inFlight decided)
    (hopen : ∀ a ∈ inFlight, a.request_id ≠ id) : index.machines.records.instances id = none := by
  cases hinst : index.machines.records.instances id with
  | none => rfl
  | some inst =>
    obtain ⟨a, ha, hid⟩ := h.waits_open id inst hinst
    exact absurd hid (hopen a ha)

/-- The maps and the open instances name the same ids: a seen id has a decision or an instance, never
both, and the two maps of decisions hold the same ones. -/
structure Consistent (index : DecisionIndex) : Prop where
  seen : ∀ id, index.fingerprints.get? id ≠ none ↔
    index.results.get? id ≠ none ∨ index.machines.records.instances id ≠ none
  apart : ∀ id, index.results.get? id ≠ none → index.machines.records.instances id = none
  results : ∀ id r, index.results.get? id = some r → r.request_id = id ∧ index.by_index.get? r.index = some r
  by_index : ∀ i r, index.by_index.get? i = some r → r.index = i ∧ index.results.get? r.request_id = some r

theorem Describes.consistent (h : Describes index inFlight decided) : Consistent index where
  seen id := by
    constructor
    · intro hseen
      obtain ⟨text, htext⟩ := Option.ne_none_iff_exists'.mp hseen
      rcases (h.fingerprints id text).mp htext with ⟨a, ha, rfl, -⟩ | ⟨d, hd, rfl, -⟩
      · obtain ⟨inst, hinst, -⟩ := h.open_waits a ha
        exact Or.inr (by rw [hinst]; exact Option.some_ne_none inst)
      · exact Or.inl (by rw [(h.results _ _).mpr ⟨d, hd, rfl, rfl⟩]; exact Option.some_ne_none d.2)
    · intro hheld hnone
      obtain ⟨hopen, hdecided⟩ := h.unseen.mp hnone
      exact hheld.elim (fun hr => hr (h.result_none hdecided)) fun hi => hi (h.instances_none hopen)
  apart id hr := by
    obtain ⟨r, hr⟩ := Option.ne_none_iff_exists'.mp hr
    obtain ⟨d, hd, rfl, rfl⟩ := (h.results id r).mp hr
    exact h.instances_none fun a ha hid => h.open_undecided ha d hd hid.symm
  results id r hr := by
    obtain ⟨d, hd, rfl, hid⟩ := (h.results id r).mp hr
    refine ⟨hid, Dict.get?_eq_some.mpr ?_⟩
    rw [h.by_index]
    exact List.mem_map_of_mem (f := fun d : String × ApplyResult => (d.2.index, d.2)) hd
  by_index i r hr := by
    have hmem := Dict.get?_eq_some.mp hr
    rw [h.by_index] at hmem
    obtain ⟨d, hd, hpair⟩ := List.mem_map.mp hmem
    cases hpair
    exact ⟨rfl, (h.results _ _).mpr ⟨d, hd, rfl, rfl⟩⟩

/-! ## An attempt -/

variable (index) in
theorem runMachines_ok {x : Machines} {out : List (Outcome String Payload)}
    (h : drain index.machines = .ok (some (x, out))) :
    runMachines.result index = .ok out ∧ runMachines.after index = { index with machines := x } := by
  unfold runMachines
  simp only [result_bind, after_bind, result_get, after_get, ofMachines, h]
  exact ⟨rfl, rfl⟩

/-- An attempt under an unseen id is noted. -/
theorem note_spec (h : Describes index inFlight decided) (hfresh : Unseen inFlight decided a.request_id) :
    (note a).result index = .ok () ∧ Describes ((note a).after index) (a :: inFlight) decided := by
  have hresult := h.result_none hfresh.2
  have hseen := h.unseen.mpr hfresh
  obtain ⟨x₁, x₂, out, inst, hstart, hdrain, hidle, hinstances, hw⟩ :=
    start_drain (a := a) h.idle (h.instances_none hfresh.1)
  have hrun := runMachines_ok { index with
    machines := x₁, fingerprints := index.fingerprints.set a.request_id a.fingerprint } hdrain
  unfold note
  simp only [result_bind, after_bind, result_get, after_get, hresult, hseen, result_pure, after_pure,
    Option.isSome_none, Bool.false_eq_true, if_false, ofMachines, hstart, Except.mapError, result_ofExcept,
    after_ofExcept, result_modify, after_modify, hrun]
  refine ⟨trivial, hidle, ?_, h.ordered, fun b hb => ?_, fun id' inst' hinst' => ?_, h.results, h.by_index,
    fun id' text => ?_⟩
  · refine List.nodup_cons.mpr ⟨fun hmem => ?_, h.distinct⟩
    rcases List.mem_append.mp hmem with hmem | hmem
    · obtain ⟨b, hb, hid⟩ := List.mem_map.mp hmem
      exact hfresh.1 b hb hid
    · obtain ⟨d, hd, hid⟩ := List.mem_map.mp hmem
      exact hfresh.2 d hd hid
  · show ∃ inst, x₂.records.instances b.request_id = some inst ∧ Waiting inst b
    rw [hinstances]
    rcases List.mem_cons.mp hb with rfl | hb
    · exact ⟨inst, Function.update_self .., hw⟩
    · obtain ⟨inst', hinst', hw'⟩ := h.open_waits b hb
      exact ⟨inst', (Function.update_of_ne (hfresh.1 b hb) ..).trans hinst', hw'⟩
  · have hmem : Function.update index.machines.records.instances a.request_id (some inst) id' = some inst' :=
      hinstances ▸ hinst'
    by_cases hid : id' = a.request_id
    · exact ⟨a, List.mem_cons_self, hid.symm⟩
    · rw [Function.update_of_ne hid] at hmem
      obtain ⟨b, hb, hb'⟩ := h.waits_open id' inst' hmem
      exact ⟨b, List.mem_cons_of_mem _ hb, hb'⟩
  · show (index.fingerprints.set a.request_id a.fingerprint).get? id' = some text ↔ _
    rw [Dict.get?_set]
    split
    · next hid =>
      subst hid
      constructor
      · rintro ⟨⟩
        exact Or.inl ⟨a, List.mem_cons_self, rfl, rfl⟩
      · rintro (⟨b, hb, hid, rfl⟩ | ⟨d, hd, hid, -⟩)
        · rcases List.mem_cons.mp hb with rfl | hb
          · rfl
          · exact absurd hid (hfresh.1 b hb)
        · exact absurd hid (hfresh.2 d hd)
    · next hid =>
      rw [h.fingerprints]
      constructor
      · rintro (⟨b, hb, hid', htext⟩ | hd)
        · exact Or.inl ⟨b, List.mem_cons_of_mem _ hb, hid', htext⟩
        · exact Or.inr hd
      · rintro (⟨b, hb, hid', htext⟩ | hd)
        · rcases List.mem_cons.mp hb with rfl | hb
          · exact absurd hid'.symm hid
          · exact Or.inl ⟨b, hb, hid', htext⟩
        · exact Or.inr hd

/-! ## A decision -/

theorem dispatch_ok {request_id : String} {event : Event Payload} {x₁ x₂ : Machines}
    {out : List (Outcome String Payload)} (hpost : index.machines.post request_id event = .ok x₁)
    (hdrain : drain x₁ = .ok (some (x₂, out))) :
    (dispatch request_id event).result index = .ok out ∧
      (dispatch request_id event).after index = { index with machines := x₂ } := by
  have hrun := runMachines_ok { index with machines := x₁ } hdrain
  unfold dispatch
  simp only [result_bind, after_bind, result_get, after_get, ofMachines, hpost, Except.mapError,
    result_ofExcept, after_ofExcept, result_modify, after_modify, hrun]
  exact ⟨trivial, trivial⟩

/-- The attempts that stay in flight beside one id. -/
def withoutId (id : String) (inFlight : List Attempt) : List Attempt :=
  inFlight.filter fun a => decide (a.request_id ≠ id)

theorem mem_withoutId {b : Attempt} : b ∈ withoutId id inFlight ↔ b ∈ inFlight ∧ b.request_id ≠ id := by
  simp [withoutId]

/-- The attempt of an id in flight is the only one under it. -/
theorem Describes.open_unique (h : Describes index inFlight decided) {b : Attempt} (ha : a ∈ inFlight)
    (hb : b ∈ inFlight) (hid : b.request_id = a.request_id) : b = a :=
  List.inj_on_of_nodup_map (List.nodup_append.mp h.distinct).1 hb ha hid

theorem exists_mem_push {α : Type} {P : α → Prop} {l : List α} {x : α} :
    (∃ y ∈ l ++ [x], P y) ↔ (∃ y ∈ l, P y) ∨ P x := by
  simp [or_and_right, exists_or]

/-- A decision of an attempt in flight, at a later index than the others, is recorded. -/
theorem record_spec (h : Describes index inFlight decided) (ha : a ∈ inFlight)
    (hid : result.request_id = a.request_id) (hlater : ∀ d ∈ decided, d.2.index < result.index) :
    (record result).result index = .ok () ∧
      Describes ((record result).after index) (withoutId a.request_id inFlight)
        (decided ++ [(a.fingerprint, result)]) := by
  obtain ⟨inst, hinst, hw⟩ := h.open_waits a ha
  have hundecided := h.result_none (h.open_undecided ha)
  have hseen : index.fingerprints.get? a.request_id = some a.fingerprint :=
    (h.fingerprints _ _).mpr (Or.inl ⟨a, ha, rfl, rfl⟩)
  obtain ⟨x₁, x₂, x₃, out, hpost, hdrain, hforget, hidle, hinstances⟩ :=
    decide_drain result h.idle hinst hw
  have hdispatch := dispatch_ok hpost hdrain
  rw [← hid] at hundecided hseen hforget hdispatch
  unfold record
  simp only [result_bind, after_bind, result_get, after_get, hundecided, hseen, Option.isNone_some,
    Option.isSome_none, Bool.or_false, Bool.false_eq_true, if_false, hdispatch, result_modify, after_modify, ofMachines, hforget, Except.mapError, result_ofExcept, after_ofExcept]
  refine ⟨trivial, hidle, ?_, ?_, fun b hb => ?_, fun id' inst' hinst' => ?_, fun id' r => ?_, ?_,
    fun id' text => ?_⟩
  · rw [List.map_append, List.map_singleton, ← List.append_assoc]
    refine List.nodup_append.mpr ⟨?_, List.nodup_singleton _, ?_⟩
    · exact h.distinct.sublist (List.Sublist.append (List.filter_sublist.map _) (List.Sublist.refl _))
    · intro id' hmem id'' hlast
      obtain rfl : id'' = result.request_id := List.mem_singleton.mp hlast
      rintro rfl
      rcases List.mem_append.mp hmem with hmem | hmem
      · obtain ⟨b, hb, heq⟩ := List.mem_map.mp hmem
        exact (mem_withoutId.mp hb).2 (heq.trans hid)
      · obtain ⟨d, hd, heq⟩ := List.mem_map.mp hmem
        exact h.open_undecided ha d hd (heq.trans hid)
  · refine List.pairwise_append.mpr ⟨h.ordered, List.pairwise_singleton _ _, fun d hd d' hd' => ?_⟩
    rw [List.mem_singleton.mp hd']
    exact hlater d hd
  · obtain ⟨hb, hne⟩ := mem_withoutId.mp hb
    obtain ⟨inst', hinst', hw'⟩ := h.open_waits b hb
    refine ⟨inst', ?_, hw'⟩
    show x₃.records.instances b.request_id = _
    rw [hinstances, Function.update_of_ne hne, hinst']
  · have hmem : Function.update index.machines.records.instances a.request_id none id' = some inst' :=
      hinstances ▸ hinst'
    by_cases hid' : id' = a.request_id
    · rw [hid', Function.update_self] at hmem
      cases hmem
    · rw [Function.update_of_ne hid'] at hmem
      obtain ⟨b, hb, rfl⟩ := h.waits_open id' inst' hmem
      exact ⟨b, mem_withoutId.mpr ⟨hb, hid'⟩, rfl⟩
  · show (index.results.set result.request_id result).get? id' = some r ↔ _
    rw [Dict.get?_set, exists_mem_push]
    split
    · next heq =>
      subst heq
      constructor
      · rintro ⟨⟩
        exact Or.inr ⟨rfl, rfl⟩
      · rintro (⟨d, hd, rfl, hid'⟩ | ⟨rfl, -⟩)
        · exact absurd (hid'.trans hid) (h.open_undecided ha d hd)
        · rfl
    · next hne =>
      rw [h.results]
      constructor
      · exact Or.inl
      · rintro (hd | ⟨rfl, hid'⟩)
        · exact hd
        · exact absurd hid'.symm hne
  · show (index.by_index.set result.index result).entries = _
    have hnew : result.index ∉ index.by_index.keys := by
      rw [Dict.keys, h.by_index, List.map_map]
      intro hmem
      obtain ⟨d, hd, heq⟩ := List.mem_map.mp hmem
      exact absurd heq (Nat.ne_of_lt (hlater d hd))
    rw [Dict.entries_set hnew, h.by_index, List.map_append]
    rfl
  · show index.fingerprints.get? id' = some text ↔ _
    rw [h.fingerprints, exists_mem_push]
    constructor
    · rintro (⟨b, hb, hid', htext⟩ | hd)
      · by_cases heq : b.request_id = a.request_id
        · obtain rfl := h.open_unique ha hb heq
          exact Or.inr (Or.inr ⟨hid.trans hid', htext⟩)
        · exact Or.inl ⟨b, mem_withoutId.mpr ⟨hb, heq⟩, hid', htext⟩
      · exact Or.inr (Or.inl hd)
    · rintro (⟨b, hb, hid', htext⟩ | hd | ⟨hid', htext⟩)
      · exact Or.inl ⟨b, (mem_withoutId.mp hb).1, hid', htext⟩
      · exact Or.inr hd
      · exact Or.inl ⟨a, ha, hid.symm.trans hid', htext⟩

/-! ## Eviction -/

variable (index) in
theorem forgetId_ok {r : ApplyResult} (hresult : index.results.get? id = some r)
    (hseen : index.fingerprints.get? id = some text) :
    (forgetId id).result index = .ok () ∧ (forgetId id).after index =
      { index with results := index.results.erase id, fingerprints := index.fingerprints.erase id } := by
  unfold forgetId
  simp only [result_bind, after_bind, result_get, after_get, hresult, Option.isNone_some,
    Bool.false_eq_true, if_false, result_modify, after_modify, hseen]
  exact ⟨trivial, trivial⟩

/-- The oldest decision goes from every map. -/
theorem Describes.tail {d : String × ApplyResult} (h : Describes index inFlight (d :: decided)) :
    Describes { index with
      by_index := index.by_index.erase d.2.index
      results := index.results.erase d.2.request_id
      fingerprints := index.fingerprints.erase d.2.request_id } inFlight decided := by
  obtain ⟨hfirst, hordered⟩ := List.pairwise_cons.mp h.ordered
  obtain ⟨hopen, hdistinct, hcross⟩ := List.nodup_append.mp h.distinct
  obtain ⟨hfresh, hrest⟩ := List.nodup_cons.mp hdistinct
  have hother : ∀ d' ∈ decided, d'.2.request_id ≠ d.2.request_id := by
    intro d' hd' heq
    have hmem : d'.2.request_id ∈ decided.map fun d => d.2.request_id :=
      List.mem_map_of_mem (f := fun d : String × ApplyResult => d.2.request_id) hd'
    rw [heq] at hmem
    exact hfresh hmem
  refine ⟨h.idle, ?_, hordered, h.open_waits, h.waits_open, fun id' r => ?_, ?_, fun id' text => ?_⟩
  · exact List.nodup_append.mpr ⟨hopen, hrest, fun x hx y hy => hcross x hx y (List.mem_cons_of_mem _ hy)⟩
  · show (index.results.erase d.2.request_id).get? id' = some r ↔ _
    rw [Dict.get?_erase]
    split
    · next heq =>
      subst heq
      refine ⟨by rintro ⟨⟩, ?_⟩
      rintro ⟨d', hd', rfl, hid⟩
      exact absurd hid (hother d' hd')
    · next hne =>
      rw [h.results]
      constructor
      · rintro ⟨d', hd', rfl, hid⟩
        rcases List.mem_cons.mp hd' with rfl | hd'
        · exact absurd hid.symm hne
        · exact ⟨d', hd', rfl, hid⟩
      · rintro ⟨d', hd', hr, hid⟩
        exact ⟨d', List.mem_cons_of_mem _ hd', hr, hid⟩
  · show index.by_index.entries.filter (fun e => decide (e.1 ≠ d.2.index)) = _
    rw [h.by_index, List.map_cons, List.filter_cons_of_neg (by simp), List.filter_eq_self]
    intro e he
    obtain ⟨d', hd', rfl⟩ := List.mem_map.mp he
    exact decide_eq_true (Nat.ne_of_gt (hfirst d' hd'))
  · show (index.fingerprints.erase d.2.request_id).get? id' = some text ↔ _
    rw [Dict.get?_erase]
    split
    · next heq =>
      subst heq
      refine ⟨by rintro ⟨⟩, ?_⟩
      rintro (⟨b, hb, hid, -⟩ | ⟨d', hd', hid, -⟩)
      · exact absurd hid (hcross _ (List.mem_map_of_mem hb) _ List.mem_cons_self)
      · exact absurd hid (hother d' hd')
    · next hne =>
      rw [h.fingerprints]
      refine or_congr_right ?_
      constructor
      · rintro ⟨d', hd', hid, htext⟩
        rcases List.mem_cons.mp hd' with rfl | hd'
        · exact absurd hid.symm hne
        · exact ⟨d', hd', hid, htext⟩
      · rintro ⟨d', hd', hid, htext⟩
        exact ⟨d', List.mem_cons_of_mem _ hd', hid, htext⟩

/-- The decisions from an index on. -/
def fromIndex (below : Nat) (decided : List (String × ApplyResult)) : List (String × ApplyResult) :=
  decided.filter fun d => decide (below ≤ d.2.index)

theorem evictEach_spec (h : Describes index inFlight decided) :
    (evictEach below (decided.map fun d => (d.2.index, d.2))).result index = .ok () ∧
      Describes ((evictEach below (decided.map fun d => (d.2.index, d.2))).after index) inFlight
        (fromIndex below decided) := by
  -- induction on the decisions, oldest first
  induction decided generalizing index with
  | nil => exact ⟨rfl, h⟩
  | cons d decided ih =>
    rw [List.map_cons, evictEach]
    by_cases hbelow : below ≤ d.2.index
    · have hall : fromIndex below (d :: decided) = d :: decided := by
        refine List.filter_eq_self.mpr fun d' hd' => decide_eq_true ?_
        rcases List.mem_cons.mp hd' with rfl | hd'
        · exact hbelow
        · exact hbelow.trans (Nat.le_of_lt ((List.pairwise_cons.mp h.ordered).1 d' hd'))
      rw [if_pos hbelow, hall]
      exact ⟨rfl, h⟩
    · have hresult : index.results.get? d.2.request_id = some d.2 :=
        (h.results _ _).mpr ⟨d, List.mem_cons_self, rfl, rfl⟩
      have hseen : index.fingerprints.get? d.2.request_id = some d.1 :=
        (h.fingerprints _ _).mpr (Or.inr ⟨d, List.mem_cons_self, rfl, rfl⟩)
      have hforget := forgetId_ok { index with by_index := index.by_index.erase d.2.index }
        hresult hseen
      have hfilter : fromIndex below (d :: decided) = fromIndex below decided :=
        List.filter_cons_of_neg (by simpa using hbelow)
      rw [if_neg hbelow, hfilter]
      simp only [result_bind, after_bind, result_modify, after_modify, hforget]
      exact ih h.tail

/-- Eviction takes the decisions below an index from every map. -/
theorem evict_below_spec (below : Nat) (h : Describes index inFlight decided) :
    (evict_below below).result index = .ok () ∧
      Describes ((evict_below below).after index) inFlight (fromIndex below decided) := by
  unfold evict_below
  simp only [result_bind, after_bind, result_get, after_get, h.by_index]
  exact evictEach_spec h

/-! ## A lookup -/

variable (fallback : Option Fallback) (text)

/-- A decided id is answered from the maps. -/
theorem lookup_decided (h : Describes index inFlight decided) {d : String × ApplyResult} (hd : d ∈ decided) :
    (lookup fallback d.2.request_id text).result index =
        (if text = d.1 then .ok (some d.2) else .error (.collision d.2.request_id (some d.2))) ∧
      (lookup fallback d.2.request_id text).after index = index := by
  have hresult : index.results.get? d.2.request_id = some d.2 := (h.results _ _).mpr ⟨d, hd, rfl, rfl⟩
  have hseen : index.fingerprints.get? d.2.request_id = some d.1 :=
    (h.fingerprints _ _).mpr (Or.inr ⟨d, hd, rfl, rfl⟩)
  unfold lookup
  simp only [result_bind, after_bind, result_get, after_get, hresult, hseen]
  by_cases htext : d.1 = text
  · simp only [htext, ne_eq, not_true_eq_false, if_false, if_true]
    exact ⟨rfl, rfl⟩
  · simp only [ne_eq, htext, not_false_eq_true, if_true, if_neg (Ne.symm htext)]
    exact ⟨rfl, rfl⟩

/-- An id in flight is refused under another fingerprint, and raises under its own. -/
theorem lookup_open (h : Describes index inFlight decided) (ha : a ∈ inFlight) :
    (lookup fallback a.request_id text).result index =
        (if text = a.fingerprint then .error (.undecided a.request_id)
          else .error (.collision a.request_id none)) ∧
      (lookup fallback a.request_id text).after index = index := by
  obtain ⟨inst, hinst, hw⟩ := h.open_waits a ha
  have hundecided := h.result_none (h.open_undecided ha)
  have hseen : index.fingerprints.get? a.request_id = some a.fingerprint :=
    (h.fingerprints _ _).mpr (Or.inl ⟨a, ha, rfl, rfl⟩)
  obtain ⟨x₁, out, hpost, hdrain, hrefusals⟩ := input_drain text h.idle hinst hw
  have hdispatch := dispatch_ok hpost hdrain
  unfold lookup
  simp only [result_bind, after_bind, result_get, after_get, hundecided, hseen, hdispatch, hrefusals]
  by_cases htext : text = a.fingerprint
  · simp only [htext, if_true]
    exact ⟨rfl, rfl⟩
  · simp only [htext, if_false]
    exact ⟨rfl, rfl⟩

/-- An id that is neither in flight nor decided is the store's. -/
theorem lookup_unseen (h : Describes index inFlight decided) (hfresh : Unseen inFlight decided id) :
    (lookup fallback id text).result index =
        (match (fallback.map (· id)).getD (.ok none) with
          | .error e => .error e
          | .ok none => .ok none
          | .ok (some (stored, under)) =>
            if text = under then .ok (some stored) else .error (.collision id (some stored))) ∧
      (lookup fallback id text).after index = index := by
  unfold lookup
  simp only [result_bind, after_bind, result_get, after_get, h.unseen.mpr hfresh, result_ofExcept,
    after_ofExcept]
  cases (fallback.map (· id)).getD (.ok none) with
  | error e => exact ⟨rfl, rfl⟩
  | ok found =>
    cases found with
    | none => exact ⟨rfl, rfl⟩
    | some stored =>
      by_cases htext : stored.2 = text
      · simp only [htext, ne_eq, not_true_eq_false, if_false, if_true]
        exact ⟨rfl, rfl⟩
      · simp only [ne_eq, htext, not_false_eq_true, if_true, if_neg (Ne.symm htext)]
        exact ⟨rfl, rfl⟩

end Dsl41.Admission
