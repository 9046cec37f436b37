import Dsl41.StateMachine.FallThrough
import Dsl41.StateMachine.Runs

/-!
# Every event of the alphabet is answered

Where one guard of each state's rows holds, a selection can only fail by an ambiguity. It comes
out empty only when no active state has a row or a deferral for the event, and such a
configuration is a hole that the static check refuses.

* `select_error` — what a selection raises
* `select_empty_silent` — when it comes out empty
* `events_answered` — the dynamic and the static side
-/

namespace Dsl41.StateMachine

open Infra

variable {κ υ ω : Type} {chart : Statechart κ υ ω} {active : Finset Name} {ctx : Context κ υ}
  {world : ω}

/-! ## One state, one walk -/

theorem heldRows_ok : ∀ {rows : List Row},
    (∀ row ∈ rows, row.guard = "" ∨ (chart.guards row.guard).isSome) →
    ∃ held, heldRows chart ctx world rows = .ok held ∧ held.Sublist rows
  | [], _ => ⟨[], rfl, .slnil⟩
  | row :: rows, h => by
    obtain ⟨held, hheld, hsub⟩ := heldRows_ok fun r hr => h r (List.mem_cons_of_mem _ hr)
    have hb : ∃ b, holds chart row.guard ctx world = .ok b := by
      unfold holds
      rcases h row List.mem_cons_self with hg | hg
      · exact ⟨true, by rw [if_pos hg]⟩
      · obtain ⟨g, hg⟩ := Option.isSome_iff_exists.mp hg
        split
        · exact ⟨true, rfl⟩
        · exact ⟨g ctx world, by rw [hg]⟩
    obtain ⟨b, hb⟩ := hb
    refine ⟨if b then row :: held else held, ?_, ?_⟩
    · rw [heldRows, hb, hheld]
      rfl
    · cases b with
      | true => exact hsub.cons_cons row
      | false => exact hsub.cons row

/-- Of the rows that each active state has for the event, exactly one guard holds. -/
def OneHolds (chart : Statechart κ υ ω) (active : Finset Name) (ctx : Context κ υ) (world : ω) :
    Prop :=
  ∀ s ∈ active, (index chart).rowsFor s ctx.event.name ≠ [] →
    ∃! row, row ∈ (index chart).rowsFor s ctx.event.name ∧
      holds chart row.guard ctx world = .ok true

theorem eq_singleton_of_unique {α : Type} {l : List α} {a : α} (hnd : l.Nodup)
    (h : ∀ x, x ∈ l ↔ x = a) : l = [a] := by
  cases l with
  | nil => exact absurd ((h a).mpr rfl) List.not_mem_nil
  | cons b l =>
    have hb := (h b).mp List.mem_cons_self
    subst hb
    cases l with
    | nil => rfl
    | cons c l =>
      have hc := (h c).mp (by simp)
      subst hc
      simp at hnd

/-- The enabled row of an active state; none only where the state has no row. -/
theorem enabled_ok (wf : WellFormed chart) (h1 : OneHolds chart active ctx world) {s : Name}
    (hs : s ∈ active) :
    ∃ found, enabled chart (index chart) s ctx.event.name ctx world = .ok found ∧
      (found = none → (index chart).rowsFor s ctx.event.name = []) := by
  obtain ⟨held, hheld, hsub⟩ : ∃ held, heldRows chart ctx world
      ((index chart).rowsFor s ctx.event.name) = .ok held ∧ held.Sublist _ :=
    heldRows_ok fun row hr => wf.guard row (List.mem_filter.mp hr).1
  by_cases hr : (index chart).rowsFor s ctx.event.name = []
  · rw [hr] at hheld
    refine ⟨none, ?_, fun _ => hr⟩
    simp only [enabled, hr, heldRows]
    rfl
  · obtain ⟨row, hrow, huniq⟩ := h1 s hs hr
    have hone : held = [row] := by
      refine eq_singleton_of_unique (hsub.nodup (wf.rowsNodup.filter _)) fun x => ?_
      rw [heldRows_mem hheld]
      exact ⟨huniq x, fun he => he ▸ hrow⟩
    refine ⟨some row, ?_, nofun⟩
    simp only [enabled, hheld, hone]
    rfl

theorem walk_ok (wf : WellFormed chart) (h1 : OneHolds chart active ctx world) :
    ∀ {l : List Name}, (∀ s ∈ l, s ∈ active) →
    ∃ ended, walk chart (index chart) ctx world l = .ok ended ∧ (ended = .nothing →
      ∀ s ∈ l, (index chart).rowsFor s ctx.event.name = [] ∧
        ctx.event.name ∉ (index chart).defer s)
  | [], _ => ⟨.nothing, rfl, fun _ s hs => by cases hs⟩
  | s :: l, h => by
    obtain ⟨found, hf, hnone⟩ := enabled_ok wf h1 (h s List.mem_cons_self)
    unfold walk
    rw [hf]
    cases found with
    | some row => exact ⟨.row row, rfl, by simp⟩
    | none =>
      show ∃ ended, (if ctx.event.name ∈ (index chart).defer s then .ok (.deferral s)
        else walk chart (index chart) ctx world l) = .ok ended ∧ _
      split
      · exact ⟨.deferral s, rfl, by simp⟩
      next hd =>
        obtain ⟨ended, hw, hall⟩ := walk_ok wf h1 fun x hx => h x (List.mem_cons_of_mem _ hx)
        refine ⟨ended, hw, fun he x hx => ?_⟩
        rcases List.mem_cons.mp hx with rfl | hx
        · exact ⟨hnone rfl, hd⟩
        · exact hall he x hx

theorem gather_ok : ∀ {leaves : List Name} {found : List Row × List Name},
    (∀ leaf ∈ leaves, ∃ ended,
      walk chart (index chart) ctx world ((index chart).path leaf) = .ok ended) →
    ∃ gathered, gather chart (index chart) ctx world leaves found = .ok gathered
  | [], found, _ => ⟨found, rfl⟩
  | leaf :: leaves, (c, d), h => by
    obtain ⟨ended, hw⟩ := h leaf List.mem_cons_self
    have hrest : ∀ found, ∃ gathered,
        gather chart (index chart) ctx world leaves found = .ok gathered :=
      fun _ => gather_ok fun x hx => h x (List.mem_cons_of_mem _ hx)
    unfold gather
    rw [hw]
    cases ended with
    | row row => exact hrest _
    | deferral s => exact hrest _
    | nothing => exact hrest _

/-! ## The filters -/

theorem exitSets_ok (wf : WellFormed chart) (hA : (index chart).Legal wf.sound active)
    {candidates : List Row} (h : ∀ row ∈ candidates, row ∈ chart.rows ∧ row.source ∈ active) :
    ∃ exits, exitSets (index chart) active candidates = .ok exits := by
  obtain ⟨exits, hexits, -⟩ := mapM_ok (P := fun _ _ => True)
    (f := fun row => (do return (row, ← exitSet (index chart) active row) :
      Except StatechartError (Row × Finset Name))) (l := candidates) fun row hr => by
    by_cases hk : row.kind = .external
    · obtain ⟨ex, hex, -⟩ := exitSet_ok wf hA (h row hr).1 hk (h row hr).2
      exact ⟨(row, ex), by rw [hex]; rfl, trivial⟩
    · exact ⟨(row, ∅), by simp only [exitSet, ne_eq, hk, not_false_eq_true, if_true]; rfl, trivial⟩
  exact ⟨exits, hexits⟩

theorem refusalAlone_error {candidates : List Row} {e : StatechartError}
    (h : refusalAlone candidates = .error e) : e.ambiguous = true := by
  unfold refusalAlone at h
  split at h
  · split at h
    · cases h
      rfl
    · cases h
  · cases h

theorem withoutConflicts_error {candidates : List Row} {e : StatechartError}
    (hex : ∃ exits, exitSets (index chart) active candidates = .ok exits)
    (h : withoutConflicts (index chart) active candidates = .error e) : e.ambiguous = true := by
  obtain ⟨exits, hexits⟩ := hex
  unfold withoutConflicts at h
  rcases bind_eq_error.mp h with h | ⟨_, -, h⟩
  · rw [hexits] at h
    cases h
  · rcases bind_eq_error.mp h with h | ⟨_, -, h⟩
    · obtain ⟨kept, depth, -, h⟩ := foldlM_error h
      unfold keepDepth at h
      simp only at h
      split at h
      · cases h
        rfl
      · cases h
    · cases h

/-- The deepest candidates are kept. -/
theorem withoutConflicts_ne_nil {candidates kept : List Row} (hne : candidates ≠ [])
    (h : withoutConflicts (index chart) active candidates = .ok kept) : kept ≠ [] := by
  unfold withoutConflicts at h
  obtain ⟨exits, hexits, h⟩ := bind_eq_ok.mp h
  obtain ⟨pairs, hpairs, h⟩ := bind_eq_ok.mp h
  cases h
  obtain ⟨hmap, -⟩ := mem_exitSets hexits
  have hgrow : ∀ p kept kept' depth, p ∈ kept →
      keepDepth (index chart) exits kept depth = .ok kept' → p ∈ kept' := by
    intro p kept kept' depth hp hk
    unfold keepDepth at hk
    simp only at hk
    split at hk
    · cases hk
    · cases hk
      exact List.mem_append_left _ hp
  -- the first depth is that of some candidate, and nothing is kept before it
  have hfirst : ∃ p ∈ pairs, p ∈ exits := by
    generalize hd : ((candidates.map fun row => (index chart).depth row.source).dedup).insertionSort
      (· ≥ ·) = depths at hpairs
    cases depths with
    | nil =>
      have hm : ∀ d, d ∉ candidates.map fun row => (index chart).depth row.source := by
        intro d hdm
        have : d ∈ ((candidates.map fun row => (index chart).depth row.source).dedup).insertionSort
            (· ≥ ·) := by simpa [List.mem_insertionSort, List.mem_dedup] using hdm
        rw [hd] at this
        cases this
      obtain ⟨row, hrow⟩ := List.exists_mem_of_ne_nil _ hne
      exact absurd (List.mem_map_of_mem hrow) (hm _)
    | cons d depths =>
      have hdm : d ∈ candidates.map fun row => (index chart).depth row.source := by
        have : d ∈ ((candidates.map fun row => (index chart).depth row.source).dedup).insertionSort
            (· ≥ ·) := by rw [hd]; exact List.mem_cons_self
        simpa [List.mem_insertionSort, List.mem_dedup] using this
      obtain ⟨row, hrow, hdepth⟩ := List.mem_map.mp hdm
      obtain ⟨p, hp, rfl⟩ := List.mem_map.mp (hmap ▸ hrow)
      rw [List.foldlM_cons] at hpairs
      obtain ⟨level, hlevel, hpairs⟩ := bind_eq_ok.mp hpairs
      have hpl : p ∈ level := by
        unfold keepDepth at hlevel
        simp only at hlevel
        split at hlevel
        · cases hlevel
        · cases hlevel
          simp [hp, hdepth]
      exact ⟨p, foldlM_inv (P := fun l => p ∈ l) (fun b a b' hb hs => hgrow p b b' a hb hs) hpl
        hpairs, hp⟩
  obtain ⟨p, hp, hpe⟩ := hfirst
  refine List.ne_nil_of_mem (a := p.1) (List.mem_filter.mpr ⟨?_, ?_⟩)
  · rw [← hmap]
    exact List.mem_map_of_mem hpe
  · simpa using ⟨p.2, hp⟩

/-- An external row survives: its source is in its own exit set, which meets no other. -/
theorem withoutExitedSources_ne_nil (wf : WellFormed chart)
    (hA : (index chart).Legal wf.sound active) {candidates kept : List Row}
    (hrows : ∀ row ∈ candidates, row ∈ chart.rows ∧ row.source ∈ active)
    (hdis : candidates.Pairwise fun a b => ∀ ea eb, exitSet (index chart) active a = .ok ea →
      exitSet (index chart) active b = .ok eb → Disjoint ea eb)
    (hne : candidates ≠ [])
    (h : withoutExitedSources (index chart) active candidates = .ok kept) : kept ≠ [] := by
  unfold withoutExitedSources at h
  obtain ⟨exits, hexits, h⟩ := bind_eq_ok.mp h
  cases h
  obtain ⟨hmap, hex⟩ := mem_exitSets hexits
  have hcand : ∀ p ∈ exits, p.1 ∈ candidates := fun p hp => hmap ▸ List.mem_map_of_mem hp
  have survives : ∀ row ∈ candidates, (∀ p ∈ exits, p.1 ≠ row → row.source ∉ p.2) →
      candidates.filter (fun row => ¬ exits.any fun p => p.1 ≠ row ∧ row.source ∈ p.2) ≠ [] := by
    intro row hr hall
    refine List.ne_nil_of_mem (a := row) (List.mem_filter.mpr ⟨hr, ?_⟩)
    simp only [decide_eq_true_eq, List.any_eq_true, not_exists, not_and]
    exact hall
  by_cases hk : ∃ row ∈ candidates, row.kind = .external
  · obtain ⟨row, hr, hk⟩ := hk
    obtain ⟨er, her, hmem⟩ := exitSet_ok wf hA (hrows row hr).1 hk (hrows row hr).2
    refine survives row hr fun p hp hpr hin => ?_
    have : Std.Symm fun a b : Row => ∀ ea eb, exitSet (index chart) active a = .ok ea →
        exitSet (index chart) active b = .ok eb → Disjoint ea eb :=
      ⟨fun _ _ h ea eb hea heb => (h eb ea heb hea).symm⟩
    have hd := hdis.forall (hcand p hp) hr hpr p.2 er (hex p hp) her
    have hown : row.source ∈ er :=
      (hmem _).mpr ⟨(hrows row hr).2, (wf.domain (hrows row hr).1 hk).1⟩
    exact (Finset.disjoint_left.mp hd) hin hown
  · obtain ⟨row, hr⟩ := List.exists_mem_of_ne_nil _ hne
    refine survives row hr fun p hp _ hin => ?_
    have hpk : p.1.kind ≠ .external := fun he => hk ⟨p.1, hcand p hp, he⟩
    have := hex p hp
    simp only [exitSet, ne_eq, hpk, not_false_eq_true, if_true, Except.ok.injEq] at this
    rw [← this] at hin
    cases hin

/-! ## The selection -/

section Selection

variable (wf : WellFormed chart) (hA : (index chart).Legal wf.sound active)
  (h1 : OneHolds chart active ctx world)
include hA h1

theorem walks_ok : ∀ leaf ∈ (index chart).leaves active, ∃ ended,
    walk chart (index chart) ctx world ((index chart).path leaf) = .ok ended ∧
    (ended = .nothing → ∀ s ∈ (index chart).path leaf,
      (index chart).rowsFor s ctx.event.name = [] ∧ ctx.event.name ∉ (index chart).defer s) :=
  fun _ hl => walk_ok wf h1 fun _ hs => path_mem_active wf hA hl hs

omit h1 in
theorem gathered_sources {candidates : List Row} {deferring : List Name}
    (hg : gather chart (index chart) ctx world ((index chart).leaves active) ([], []) =
      .ok (candidates, deferring)) :
    ∀ row ∈ candidates, row ∈ chart.rows ∧ row.source ∈ active := by
  intro row hr
  rcases ((gather_spec List.nodup_nil hg).2.1 row).mp hr with hm | ⟨leaf, hl, hw⟩
  · cases hm
  · obtain ⟨hs, hm⟩ := walk_row hw
    exact ⟨hm, path_mem_active wf hA hl hs⟩

/-- **A selection raises nothing but an ambiguity.** -/
theorem select_error {e : StatechartError}
    (h : select chart (index chart) active ctx world = .error e) : e.ambiguous = true := by
  obtain ⟨⟨candidates, deferring⟩, hg⟩ : ∃ gathered,
      gather chart (index chart) ctx world ((index chart).leaves active) ([], []) = .ok gathered :=
    gather_ok fun leaf hl => (walks_ok wf hA h1 leaf hl).imp fun _ h => h.1
  have hsrc := gathered_sources wf hA hg
  unfold select at h
  rcases bind_eq_error.mp h with h | ⟨_, hg', h⟩
  · rw [hg] at h
    cases h
  rw [hg] at hg'
  cases hg'
  simp only at h
  rcases bind_eq_error.mp h with h | ⟨stood, hy, h⟩
  · exact refusalAlone_error h
  have hstood : ∀ row ∈ stood, row ∈ chart.rows ∧ row.source ∈ active := fun row hr =>
    hsrc row (List.mem_filter.mp ((yielded_spec hy).1.subset hr)).1
  rcases bind_eq_error.mp h with h | ⟨kept, hc, h⟩
  · exact withoutConflicts_error (exitSets_ok wf hA hstood) h
  have hnd := (yielded_spec hy).1.nodup (((gather_spec List.nodup_nil hg).1).filter _)
  have hkept : ∀ row ∈ kept, row ∈ chart.rows ∧ row.source ∈ active := fun row hr =>
    hstood row ((withoutConflicts_spec hnd hc).1.subset hr)
  obtain ⟨exits, hexits⟩ := exitSets_ok wf hA hkept
  rcases bind_eq_error.mp h with h | ⟨_, -, h⟩
  · unfold withoutExitedSources at h
    rw [hexits] at h
    cases h
  · cases h

/-- **A selection comes out empty only where no active state has a row or a deferral.** -/
theorem select_empty_silent (h : select chart (index chart) active ctx world = .ok ([], [])) :
    ∀ s ∈ active, (index chart).rowsFor s ctx.event.name = [] ∧
      ctx.event.name ∉ (index chart).defer s := by
  obtain ⟨candidates, stood, kept, hg, hy, hc, hx⟩ := select_stages h
  have hsrc := gathered_sources wf hA hg
  obtain ⟨hnd, hrows, hdefs⟩ := gather_spec List.nodup_nil hg
  have hnil : candidates = [] := by
    by_contra hne
    have hfilter : (candidates.filter fun row =>
        ¬ ([] : List Name).any fun d => (index chart).below d row.source) = candidates := by simp
    rw [hfilter] at hy
    have hstood : ∀ row ∈ stood, row ∈ chart.rows ∧ row.source ∈ active := fun row hr =>
      hsrc row ((yielded_spec hy).1.subset hr)
    have hnd' : stood.Nodup := (yielded_spec hy).1.nodup hnd
    obtain ⟨hsub, hdis⟩ := withoutConflicts_spec hnd' hc
    refine withoutExitedSources_ne_nil wf hA (fun row hr => hstood row (hsub.subset hr)) hdis ?_ hx
      rfl
    exact withoutConflicts_ne_nil ((yielded_spec hy).2 hne) hc
  intro s hs
  -- every active state lies on the path of an active leaf
  have hB := Hierarchy.complete_root_iff.mpr hA
  obtain ⟨leaf, hl, hsub, hr⟩ := hB.exists_leaf
    (fun x hx => Nat.le_of_lt (Index.depth_lt_height wf.sound hx)) hs
  have hlo : leaf ∈ (index chart).order := hB.declared hl
  have hlr : (index chart).regions leaf = [] := List.length_eq_zero_iff.mp hr
  have hleaf := Index.mem_leaves.mpr ⟨hlo, hl, hlr⟩
  obtain ⟨ended, hw, hsilent⟩ := walks_ok wf hA h1 leaf hleaf
  cases ended with
  | row row =>
    have := (hrows row).mpr (Or.inr ⟨leaf, hleaf, hw⟩)
    rw [hnil] at this
    cases this
  | deferral t =>
    have := (hdefs t).mpr (Or.inr ⟨leaf, hleaf, hw⟩)
    cases this
  | nothing => exact hsilent rfl s ((Index.mem_path wf.sound hlo).mpr hsub)

end Selection

/-! ## The answer -/

theorem leaves_ne_nil (wf : WellFormed chart) (hA : (index chart).Legal wf.sound active) :
    ∃ leaf, leaf ∈ (index chart).leaves active := by
  have hB := Hierarchy.complete_root_iff.mpr hA
  obtain ⟨leaf, hl, -, hr⟩ := hB.exists_leaf
    (fun x hx => Nat.le_of_lt (Index.depth_lt_height wf.sound hx)) hB.top_mem
  exact ⟨leaf, Index.mem_leaves.mpr ⟨hB.declared hl, hl, List.length_eq_zero_iff.mp hr⟩⟩

/-- A configuration whose selection comes out empty is no hole of the static check, so all of
its leaves are final. -/
theorem leaves_final_of_empty (wf : WellFormed chart) (hx : chart.exclusions = [])
    (hA : (index chart).Legal wf.sound active) (he : ctx.event.name ∈ alphabet chart)
    (h1 : OneHolds chart active ctx world)
    (h : select chart (index chart) active ctx world = .ok ([], [])) :
    ∀ l ∈ (index chart).leaves active, (index chart).final l = true := by
  intro l hl
  by_contra hlf
  rw [Bool.not_eq_true] at hlf
  have hsilent := select_empty_silent wf hA h1 h
  have hsilent' : ∀ s ∈ active, (index chart).Silent ctx.event.name [] s :=
    fun s hs => ⟨(hsilent s hs).1, (hsilent s hs).2, List.not_mem_nil⟩
  obtain ⟨hole, hh, m, hm, hmf⟩ := (Index.fallThrough_iff wf.sound).mpr
    ⟨active, (Index.configuration_iff wf.sound).mpr hA, ⟨l, hl, hlf⟩, hsilent'⟩
  have hcells : excludedCells chart = [] := by simp [excludedCells, hx]
  have hall := wf.noHole _ he hole (hcells ▸ hh)
  rw [List.all_eq_true.mp hall m hm] at hmf
  cases hmf

/-- What an event of the alphabet comes to in a configuration, when it raises no ambiguity. -/
theorem decideItem_answers {inst : Instance κ υ ω} {item : Item κ υ}
    (hw : wellFormed inst.chart = []) (hx : inst.chart.exclusions = [])
    (hA : (index inst.chart).Configuration inst.active)
    (he : item.event.name ∈ alphabet inst.chart)
    (h1 : OneHolds inst.chart inst.active (context inst item) world)
    (ha : ∀ e, decideItem inst item (context inst item) world = .error e → e.ambiguous = false) :
    ∃ d, decideItem inst item (context inst item) world = .ok d ∧
      (d = .fired [] → ∀ l ∈ (index inst.chart).leaves inst.active,
        (index inst.chart).final l = true) := by
  have wf := WellFormed.of_nil hw
  have hL := (Index.configuration_iff wf.sound).mp hA
  by_cases hst : stale inst item.event = true
  · exact ⟨.discarded, by simp only [decideItem, hst, if_true]; rfl, nofun⟩
  simp only [decideItem, hst, Bool.false_eq_true, if_false] at ha ⊢
  cases hsel : select inst.chart (index inst.chart) inst.active (context inst item) world with
  | error e =>
    have := ha e (by rw [hsel]; rfl)
    rw [select_error wf hL h1 hsel] at this
    cases this
  | ok found =>
    obtain ⟨firing, deferring⟩ := found
    simp only [bind, Except.bind, pure, Except.pure]
    by_cases hf : firing = []
    · by_cases hd : deferring = []
      · subst hf hd
        have hfinal := leaves_final_of_empty wf hx hL he h1 hsel
        obtain ⟨leaf, hl⟩ := leaves_ne_nil wf hL
        have hne : (index inst.chart).finalLeaves inst.active ≠ [] := by
          unfold Index.finalLeaves
          rw [if_pos (List.all_eq_true.mpr hfinal)]
          exact List.ne_nil_of_mem hl
        exact ⟨.fired [], by simp [hne], fun _ => hfinal⟩
      · exact ⟨.deferred deferring, by simp [hf, hd], nofun⟩
    · refine ⟨.fired firing, by simp [hf], fun h => ?_⟩
      cases h
      exact absurd rfl hf

/--
**Every event of the alphabet is answered, and the static check is exact.**

In a configuration of a well-formed chart without exclusions, where of the rows of each active
state one guard holds, an event comes to an answer unless it raises an ambiguity; fired without a
row only when every active leaf is final. And `fallThrough` returns a hole with a leaf that is not
final exactly when a configuration has such a leaf and no active state with a row, a deferral or
an exclusion for the event.
-/
theorem events_answered :
    (∀ (inst : Instance κ υ ω) (item : Item κ υ) (world : ω), wellFormed inst.chart = [] →
      inst.chart.exclusions = [] → (index inst.chart).Configuration inst.active →
      item.event.name ∈ alphabet inst.chart →
      OneHolds inst.chart inst.active (context inst item) world →
      (∀ e, decideItem inst item (context inst item) world = .error e → e.ambiguous = false) →
      ∃ d, decideItem inst item (context inst item) world = .ok d ∧
        (d = .fired [] → ∀ l ∈ (index inst.chart).leaves inst.active,
          (index inst.chart).final l = true)) ∧
    ∀ (chart : Statechart κ υ ω) (event : Name) (excluded : List (Name × Name)),
      (index chart).order.Nodup →
      ((∃ hole, (index chart).fallThrough event excluded (index chart).root = some hole ∧
          ∃ l ∈ hole, (index chart).final l = false) ↔
        ∃ active, (index chart).Configuration active ∧
          (∃ l ∈ (index chart).leaves active, (index chart).final l = false) ∧
          ∀ s ∈ active, (index chart).rowsFor s event = [] ∧ event ∉ (index chart).defer s ∧
            (s, event) ∉ excluded) :=
  ⟨fun _ _ _ hw hx hA he h1 ha => decideItem_answers hw hx hA he h1 ha,
    fun _ _ _ hnd => Index.fallThrough_iff (Index.sound_index hnd)⟩

/-- Where `lockstep` rests after its initial entry, `go` is answered. -/
theorem events_answered_lockstep :
    let inst : Instance Nat Unit Unit :=
      { chart := lockstep, data := (), active := {"both", "l_a", "r_a"} }
    let item : Item Nat Unit := { key := 0, kind := .event, event := { name := "go", payload := () } }
    ∃ d, decideItem inst item (context inst item) () = .ok d ∧
      (d = .fired [] → ∀ l ∈ (index lockstep).leaves inst.active, (index lockstep).final l = true) := by
  intro inst item
  refine events_answered.1 inst item () (by decide +kernel : wellFormed lockstep = []) rfl
    (by decide +kernel) (by decide +kernel) ?_ ?_
  · -- each active state has one row for `go`, without a guard
    have hone : ∀ s ∈ inst.active, ((index lockstep).rowsFor s "go").length = 1 ∧
        ∀ row ∈ (index lockstep).rowsFor s "go", row.guard = "" := by decide +kernel
    intro s hs _
    obtain ⟨hlen, hguard⟩ := hone s hs
    obtain ⟨row, hrow⟩ := List.length_eq_one_iff.mp hlen
    have hmem : row ∈ (index lockstep).rowsFor s "go" := by simp [hrow]
    refine ⟨row, ⟨hmem, if_pos (hguard row hmem)⟩, fun r hr => ?_⟩
    have hr' : r ∈ (index lockstep).rowsFor s "go" := hr.1
    rw [hrow] at hr'
    exact List.mem_singleton.mp hr'
  · intro e he
    cases (show decideItem inst item (context inst item) () = .ok _ from rfl).symm.trans he

end Dsl41.StateMachine
