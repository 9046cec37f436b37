import Mathlib.Data.Finset.Lattice.Lemmas
import Mathlib.Data.List.Pairwise
import Dsl41.Infra.Result
import Dsl41.StateMachine.Select

/-!
# What a selection gives

* `select_sources` — every row of a firing set and every deferring state lies on the path of an
  active leaf
* `select_disjoint` — no two rows of a firing set exit a common state
* `enabled_some`, `walk_row`, `walk_deferral` — where they come from
-/

namespace Dsl41.StateMachine

open Infra

variable {κ υ ω : Type} {chart : Statechart κ υ ω} {ix : Index} {ctx : Context κ υ} {world : ω}
  {active : Finset Name}

/-! ## One state -/

theorem heldRows_mem : ∀ {rows held : List Row}, heldRows chart ctx world rows = .ok held →
    ∀ row, row ∈ held ↔ row ∈ rows ∧ holds chart row.guard ctx world = .ok true
  | [], held, h, row => by
    cases h
    simp
  | r :: rows, held, h, row => by
    unfold heldRows at h
    obtain ⟨b, hb, h⟩ := bind_eq_ok.mp h
    obtain ⟨rest, hrest, h⟩ := bind_eq_ok.mp h
    cases h
    have ih := heldRows_mem hrest row
    cases b with
    | true =>
      simp only [if_true, List.mem_cons, ih]
      constructor
      · rintro (rfl | ⟨hm, hh⟩)
        · exact ⟨Or.inl rfl, hb⟩
        · exact ⟨Or.inr hm, hh⟩
      · rintro ⟨rfl | hm, hh⟩
        · exact Or.inl rfl
        · exact Or.inr ⟨hm, hh⟩
    | false =>
      simp only [Bool.false_eq_true, if_false, List.mem_cons, ih]
      constructor
      · rintro ⟨hm, hh⟩
        exact ⟨Or.inr hm, hh⟩
      · rintro ⟨rfl | hm, hh⟩
        · rw [hb] at hh; cases hh
        · exact ⟨hm, hh⟩

/-- The enabled row of a state is one of its rows for the event. -/
theorem enabled_some {state event : Name} {row : Row}
    (h : enabled chart ix state event ctx world = .ok (some row)) :
    row ∈ ix.rows ∧ row.source = state ∧ row.event = event := by
  unfold enabled at h
  obtain ⟨held, hheld, h⟩ := bind_eq_ok.mp h
  split at h
  · cases h
  next r =>
    cases h
    have hm := ((heldRows_mem hheld row).mp (List.mem_singleton_self row)).1
    simpa [Index.rowsFor] using hm
  · cases h

/-! ## One walk -/

theorem walk_row : ∀ {l : List Name} {row : Row}, walk chart ix ctx world l = .ok (.row row) →
    row.source ∈ l ∧ row ∈ ix.rows
  | [], row, h => by cases h
  | s :: l, row, h => by
    unfold walk at h
    obtain ⟨found, hf, h⟩ := bind_eq_ok.mp h
    cases found with
    | some r =>
      cases h
      obtain ⟨hm, hs, -⟩ := enabled_some hf
      exact ⟨hs ▸ List.mem_cons_self, hm⟩
    | none =>
      simp only at h
      split at h
      · cases h
      · obtain ⟨hs, hm⟩ := walk_row h
        exact ⟨List.mem_cons_of_mem _ hs, hm⟩

theorem walk_deferral : ∀ {l : List Name} {state : Name},
    walk chart ix ctx world l = .ok (.deferral state) →
    state ∈ l ∧ ctx.event.name ∈ ix.defer state
  | [], state, h => by cases h
  | s :: l, state, h => by
    unfold walk at h
    obtain ⟨found, hf, h⟩ := bind_eq_ok.mp h
    cases found with
    | some r => cases h
    | none =>
      simp only at h
      split at h
      next hd =>
        cases h
        exact ⟨List.mem_cons_self, hd⟩
      next hd =>
        obtain ⟨hs, hm⟩ := walk_deferral h
        exact ⟨List.mem_cons_of_mem _ hs, hm⟩

/-! ## All walks -/

/-- `a` appended unless it is there. -/
theorem mem_appendNew {α : Type} [DecidableEq α] {l : List α} {a x : α} :
    x ∈ (if a ∈ l then l else l ++ [a]) ↔ x ∈ l ∨ x = a := by
  split
  next h => exact ⟨Or.inl, fun hx => hx.elim id (fun he => he ▸ h)⟩
  next h => simp

theorem nodup_appendNew {α : Type} [DecidableEq α] {l : List α} {a : α} (h : l.Nodup) :
    (if a ∈ l then l else l ++ [a]).Nodup := by
  split
  · exact h
  next hn =>
    rw [List.nodup_append]
    refine ⟨h, List.nodup_singleton a, ?_⟩
    rintro x hx y hy rfl
    exact hn (List.mem_singleton.mp hy ▸ hx)

/-- The candidates and the deferring states are exactly what the walks end in. -/
theorem gather_spec : ∀ {leaves : List Name} {found : List Row × List Name}
    {candidates : List Row} {deferring : List Name}, found.1.Nodup →
    gather chart ix ctx world leaves found = .ok (candidates, deferring) →
    candidates.Nodup ∧
    (∀ row, row ∈ candidates ↔ row ∈ found.1 ∨
      ∃ leaf ∈ leaves, walk chart ix ctx world (ix.path leaf) = .ok (.row row)) ∧
    (∀ s, s ∈ deferring ↔ s ∈ found.2 ∨
      ∃ leaf ∈ leaves, walk chart ix ctx world (ix.path leaf) = .ok (.deferral s))
  | [], found, candidates, deferring, hnd, h => by
    cases h
    simpa using hnd
  | leaf :: leaves, (c, d), candidates, deferring, hnd, h => by
    unfold gather at h
    obtain ⟨ended, hw, h⟩ := bind_eq_ok.mp h
    cases ended with
    | row r =>
      simp only at h
      obtain ⟨h1, h2, h3⟩ := gather_spec (nodup_appendNew hnd) h
      refine ⟨h1, fun row => ?_, fun s => ?_⟩
      · rw [h2]
        simp only [mem_appendNew, List.exists_mem_cons_iff, hw, Except.ok.injEq, WalkEnd.row.injEq]
        rw [eq_comm (a := row), or_assoc]
      · rw [h3]
        simp [hw]
    | deferral t =>
      simp only at h
      obtain ⟨h1, h2, h3⟩ := gather_spec (show c.Nodup from hnd) h
      refine ⟨h1, fun row => ?_, fun s => ?_⟩
      · rw [h2]
        simp [hw]
      · rw [h3]
        simp only [mem_appendNew, List.exists_mem_cons_iff, hw, Except.ok.injEq,
          WalkEnd.deferral.injEq]
        rw [eq_comm (a := s), or_assoc]
    | nothing =>
      obtain ⟨h1, h2, h3⟩ := gather_spec hnd h
      refine ⟨h1, fun row => ?_, fun s => ?_⟩
      · rw [h2]
        simp [hw]
      · rw [h3]
        simp [hw]

/-! ## The filters -/

theorem refusalAlone_spec {candidates kept : List Row} (h : refusalAlone candidates = .ok kept) :
    kept = candidates := by
  unfold refusalAlone at h
  split at h
  · split at h
    · cases h
    · exact (Except.ok.inj h).symm
  · exact (Except.ok.inj h).symm

theorem yielded_spec {candidates kept : List Row} (h : yielded candidates = .ok kept) :
    List.Sublist kept candidates ∧ (candidates ≠ [] → kept ≠ []) := by
  rw [refusalAlone_spec h]
  split
  next => exact ⟨List.Sublist.refl _, id⟩
  next hne => exact ⟨List.filter_sublist, fun _ => hne⟩

theorem mem_exitSets {candidates : List Row} {exits : List (Row × Finset Name)}
    (h : exitSets ix active candidates = .ok exits) :
    exits.map (·.1) = candidates ∧ ∀ p ∈ exits, exitSet ix active p.1 = .ok p.2 := by
  have hall := mapM_inv h
  clear h
  induction hall with
  | nil => simp
  | cons hp _ ih =>
    obtain ⟨ex, hex, hp⟩ := bind_eq_ok.mp hp
    cases hp
    refine ⟨by rw [List.map_cons, ih.1], fun p hp => ?_⟩
    rcases List.mem_cons.mp hp with rfl | hm
    · exact hex
    · exact ih.2 p hm

theorem meets_eq_false {a b : Row × Finset Name} : meets a b = false ↔ Disjoint a.2 b.2 := by
  simp [meets, Finset.disjoint_iff_inter_eq_empty, Finset.not_nonempty_iff_eq_empty]

theorem firstMeeting_none : ∀ {l : List (Row × Finset Name)}, firstMeeting l = none →
    l.Pairwise fun a b => Disjoint a.2 b.2
  | [], _ => List.Pairwise.nil
  | a :: l, h => by
    unfold firstMeeting at h
    split at h
    · cases h
    next hf =>
      refine List.Pairwise.cons (fun b hb => ?_) (firstMeeting_none h)
      have := List.find?_eq_none.mp hf b hb
      exact meets_eq_false.mp (by simpa using this)

/-- One depth keeps pairwise disjoint exit sets. -/
theorem keepDepth_disjoint {exits kept kept' : List (Row × Finset Name)} {depth : Nat}
    (hk : kept.Pairwise fun a b => Disjoint a.2 b.2)
    (h : keepDepth ix exits kept depth = .ok kept') :
    kept'.Pairwise fun a b => Disjoint a.2 b.2 := by
  unfold keepDepth at h
  simp only at h
  split at h
  · cases h
  next hf =>
    cases h
    rw [List.pairwise_append]
    refine ⟨hk, firstMeeting_none hf, fun a ha b hb => ?_⟩
    have := (List.mem_filter.mp hb).2
    simp only [decide_eq_true_eq, List.any_eq_true, not_exists, not_and, Bool.not_eq_true] at this
    exact (meets_eq_false.mp (this.2 a ha)).symm

/-- The kept candidates are a part of them with pairwise disjoint exit sets. -/
theorem withoutConflicts_spec {candidates kept : List Row} (hnd : candidates.Nodup)
    (h : withoutConflicts ix active candidates = .ok kept) :
    List.Sublist kept candidates ∧ kept.Pairwise fun a b => ∀ ea eb,
      exitSet ix active a = .ok ea → exitSet ix active b = .ok eb → Disjoint ea eb := by
  unfold withoutConflicts at h
  obtain ⟨exits, hexits, h⟩ := bind_eq_ok.mp h
  obtain ⟨pairs, hpairs, h⟩ := bind_eq_ok.mp h
  cases h
  refine ⟨List.filter_sublist, ?_⟩
  have hdis : pairs.Pairwise fun a b => Disjoint a.2 b.2 :=
    foldlM_inv (fun b a b' hb hs => keepDepth_disjoint hb hs) List.Pairwise.nil hpairs
  have hsub : ∀ p ∈ pairs, p ∈ exits := by
    refine foldlM_inv (P := fun l => ∀ p ∈ l, p ∈ exits) (fun b a b' hb hs => ?_) (by simp) hpairs
    unfold keepDepth at hs
    simp only at hs
    split at hs
    · cases hs
    · cases hs
      intro p hp
      rcases List.mem_append.mp hp with hp | hp
      · exact hb p hp
      · exact (List.mem_filter.mp hp).1
  obtain ⟨-, hex⟩ := mem_exitSets hexits
  refine List.Pairwise.imp_of_mem ?_ (hnd.filter _)
  intro a b ha hb hne ea eb hea heb
  obtain ⟨p, hp, rfl⟩ := List.mem_map.mp (of_decide_eq_true (List.mem_filter.mp ha).2)
  obtain ⟨q, hq, rfl⟩ := List.mem_map.mp (of_decide_eq_true (List.mem_filter.mp hb).2)
  have hpe := hex p (hsub p hp)
  have hqe := hex q (hsub q hq)
  rw [hea] at hpe
  rw [heb] at hqe
  cases hpe
  cases hqe
  have : Std.Symm fun a b : Row × Finset Name => Disjoint a.2 b.2 := ⟨fun _ _ h => h.symm⟩
  exact hdis.forall hp hq (fun he => hne (congrArg Prod.fst he))

theorem withoutExitedSources_sublist {candidates kept : List Row}
    (h : withoutExitedSources ix active candidates = .ok kept) :
    List.Sublist kept candidates := by
  unfold withoutExitedSources at h
  obtain ⟨exits, -, h⟩ := bind_eq_ok.mp h
  cases h
  exact List.filter_sublist

/-! ## The firing set -/

/-- The stages of a selection that ends. -/
theorem select_stages {firing : List Row} {deferring : List Name}
    (h : select chart ix active ctx world = .ok (firing, deferring)) :
    ∃ candidates stood kept,
      gather chart ix ctx world (ix.leaves active) ([], []) = .ok (candidates, deferring) ∧
      yielded (candidates.filter fun row => ¬ deferring.any fun d => ix.below d row.source) =
        .ok stood ∧
      withoutConflicts ix active stood = .ok kept ∧
      withoutExitedSources ix active kept = .ok firing := by
  unfold select at h
  obtain ⟨⟨candidates, d⟩, hg, h⟩ := bind_eq_ok.mp h
  obtain ⟨stood, hy, h⟩ := bind_eq_ok.mp h
  obtain ⟨kept, hc, h⟩ := bind_eq_ok.mp h
  obtain ⟨fired, hx, h⟩ := bind_eq_ok.mp h
  cases h
  exact ⟨candidates, stood, kept, hg, hy, hc, hx⟩

/-- **Firing rows and deferring states lie on the paths of active leaves.** -/
theorem select_sources {firing : List Row} {deferring : List Name}
    (h : select chart ix active ctx world = .ok (firing, deferring)) :
    (∀ row ∈ firing, row ∈ ix.rows ∧ ∃ leaf ∈ ix.leaves active, row.source ∈ ix.path leaf) ∧
    ∀ s ∈ deferring, ∃ leaf ∈ ix.leaves active, s ∈ ix.path leaf := by
  obtain ⟨candidates, stood, kept, hg, hy, hc, hx⟩ := select_stages h
  obtain ⟨hnd, hrows, hdefs⟩ := gather_spec List.nodup_nil hg
  constructor
  · intro row hr
    have hstood := (withoutExitedSources_sublist hx).subset hr
    have hkept : row ∈ candidates := by
      have hnd' : stood.Nodup := ((yielded_spec hy).1.nodup (hnd.filter _))
      have := (withoutConflicts_spec hnd' hc).1.subset hstood
      exact (List.mem_filter.mp ((yielded_spec hy).1.subset this)).1
    rcases (hrows row).mp hkept with hm | ⟨leaf, hl, hw⟩
    · cases hm
    · obtain ⟨hs, hm⟩ := walk_row hw
      exact ⟨hm, leaf, hl, hs⟩
  · intro s hs
    rcases (hdefs s).mp hs with hm | ⟨leaf, hl, hw⟩
    · cases hm
    · exact ⟨leaf, hl, (walk_deferral hw).1⟩

/-- **No two rows of a firing set exit a common state.** -/
theorem select_disjoint {firing : List Row} {deferring : List Name}
    (h : select chart ix active ctx world = .ok (firing, deferring)) :
    firing.Pairwise fun a b => ∀ ea eb,
      exitSet ix active a = .ok ea → exitSet ix active b = .ok eb → Disjoint ea eb := by
  obtain ⟨candidates, stood, kept, hg, hy, hc, hx⟩ := select_stages h
  have hnd := (gather_spec List.nodup_nil hg).1
  have hnd' : stood.Nodup := (yielded_spec hy).1.nodup (hnd.filter _)
  exact (withoutConflicts_spec hnd' hc).2.sublist (withoutExitedSources_sublist hx)

end Dsl41.StateMachine
