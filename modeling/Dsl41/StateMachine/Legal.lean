import Dsl41.StateMachine.WellFormed
import Dsl41.StateMachine.Moves
import Dsl41.StateMachine.Selection

/-!
# Every microstep leaves a configuration

One external row cuts the active subtree of its top and grafts a complete one into the same
region. The rows of a firing set exit disjoint sets, so the source of a later row survives the
earlier ones, and each of them runs on a configuration.

* `RowRun.legal`, `RowsRun.legal` — one row, a firing set
* `configurationProblem_none` — what `restore` accepts
* `Reach` — the executors a tier can reach
-/

namespace Dsl41.StateMachine

open Infra

variable {κ υ ω : Type} {chart : Statechart κ υ ω}

/-! ## One row -/

section Row

variable {ix : Index} {hs : ix.Sound} {active : Finset Name} {row : Row}

/-- A leaf is its own active subtree. -/
theorem Index.Legal.leaf (hA : ix.Legal hs active) {s x : Name} (h : s ∈ active)
    (hr : ix.regions s = []) (hx : x ∈ active) (hsx : (ix.hierarchy hs).Sub s x) : x = s := by
  have hB := Hierarchy.Legal.subtree (t := s) hA h
  rcases hB.cases ⟨hx, hsx⟩ with h | ⟨i, hi, -⟩
  · exact h
  · have : (ix.hierarchy hs).regions s = 0 := by simp [Index.hierarchy, hr]
    omega

/-- **The exits of a plan are the active subtree of its top.** -/
theorem Plan.mem_exits (hA : ix.Legal hs active) (h : ix.exitTop row ∈ active) {l : List Name}
    (hl : (ix.plan row).exits ix active = .ok l) (x : Name) :
    x ∈ l ↔ x ∈ active ∧ (ix.hierarchy hs).Sub (ix.exitTop row) x := by
  have htop : (ix.plan row).top = ix.exitTop row := rfl
  unfold Plan.exits at hl
  by_cases hr : ix.regions (ix.exitTop row) = []
  · have hleaving : (ix.plan row).leaving = some [ix.exitTop row] := by
      show (if ix.regions (ix.exitTop row) = [] then some [ix.exitTop row] else none) = _
      rw [if_pos hr]
    rw [hleaving] at hl
    cases hl
    rw [List.mem_singleton]
    constructor
    · rintro rfl
      exact ⟨h, Hierarchy.Sub.refl⟩
    · rintro ⟨hx, hsx⟩
      exact hA.leaf h hr hx hsx
  · have hleaving : (ix.plan row).leaving = none := by
      show (if ix.regions (ix.exitTop row) = [] then some [ix.exitTop row] else none) = _
      rw [if_neg hr]
    rw [hleaving, htop] at hl
    obtain ⟨l', hl', hmem⟩ := Index.exitOrder_ok hA h
    rw [hl'] at hl
    cases hl
    exact hmem x

end Row

variable {sh sh' : Shape} {row : Row} {exits enters : List Name}

/-- The domain of a declared external row. -/
theorem WellFormed.domain (wf : WellFormed chart) (hrow : row ∈ chart.rows)
    (hk : row.kind = .external) :
    ((index chart).hierarchy wf.sound).Sub ((index chart).exitTop row) row.source ∧
    ∀ t ∈ (index chart).targets row, ∃ u l,
      (index chart).entryPath ((index chart).plan row).domain.1 t = u :: l ∧
      (index chart).Down u l t ∧ u ∈ (index chart).order ∧
      (index chart).parent u = (index chart).parent ((index chart).exitTop row) ∧
      (index chart).slot u = (index chart).slot ((index chart).exitTop row) :=
  Index.domain_spec wf.sound (wf.source row hrow) (fun t ht => (wf.targets row hrow hk t ht).1)
    (fun t ht => (wf.targets row hrow hk t ht).2)

theorem WellFormed.top_mem (wf : WellFormed chart) (hrow : row ∈ chart.rows)
    (hk : row.kind = .external) {active : Finset Name}
    (hA : (index chart).Legal wf.sound active) (hsrc : row.source ∈ active) :
    (index chart).exitTop row ∈ active :=
  Hierarchy.Legal.anc_mem hA hsrc (wf.domain hrow hk).1

/-- **One row leaves a configuration.** -/
theorem RowRun.legal (wf : WellFormed chart) (hrow : row ∈ chart.rows)
    (hA : (index chart).Legal wf.sound sh.active)
    (hsrc : row.kind = .external → row.source ∈ sh.active)
    (h : RowRun (index chart) sh.active row exits enters) :
    (index chart).Legal wf.sound ((sh.exitAll exits).enterAll enters).active := by
  cases h with
  | inside _ => exact hA
  | @across hk _ target hx ht =>
    have htop := wf.top_mem hrow hk hA (hsrc hk)
    obtain ⟨u, l, hpath, hdown, hu, hup, hus⟩ := (wf.domain hrow hk).2 target ht
    have hB := Index.entryOrder_complete wf.sound wf.initials hu hdown
    have hreplace := Hierarchy.Legal.replace hA htop hB hup hus
    have hset : {x | x ∈ ((sh.exitAll exits).enterAll
          (((index chart).plan row).entryOf (index chart) target)).active} =
        {x | (x ∈ {s | s ∈ sh.active} ∧
          ¬ ((index chart).hierarchy wf.sound).Sub ((index chart).exitTop row) x) ∨
          x ∈ {x | x ∈ (index chart).entryOrder (u :: l)}} := by
      ext x
      simp only [Shape.mem_enterAll, Shape.mem_exitAll, Set.mem_ofPred_eq,
        Plan.mem_exits hA htop hx, Plan.entryOf, hpath]
      tauto
    unfold Index.Legal
    rw [hset]
    exact hreplace

/-- An active state that the row's top does not hold stays active. -/
theorem RowRun.keeps (wf : WellFormed chart) (hrow : row ∈ chart.rows)
    (hA : (index chart).Legal wf.sound sh.active)
    (hsrc : row.kind = .external → row.source ∈ sh.active)
    (h : RowRun (index chart) sh.active row exits enters) {x : Name} (hx : x ∈ sh.active)
    (hn : row.kind = .external →
      ¬ ((index chart).hierarchy wf.sound).Sub ((index chart).exitTop row) x) :
    x ∈ ((sh.exitAll exits).enterAll enters).active := by
  cases h with
  | inside _ => exact hx
  | across hk hl _ =>
    rw [Shape.mem_enterAll, Shape.mem_exitAll,
      Plan.mem_exits hA (wf.top_mem hrow hk hA (hsrc hk)) hl]
    exact Or.inl ⟨hx, fun h => hn hk h.2⟩

/-! ## A firing set -/

/-- The top of `a` does not hold the source of `b`. -/
def Apart (wf : WellFormed chart) (a b : Row) : Prop :=
  a.kind = .external → b.kind = .external →
    ¬ ((index chart).hierarchy wf.sound).Sub ((index chart).exitTop a) b.source

/-- What a microstep may run on a configuration. -/
structure Fireable (wf : WellFormed chart) (active : Finset Name) (rows : List Row) : Prop where
  declared : ∀ row ∈ rows, row ∈ chart.rows
  source : ∀ row ∈ rows, row.kind = .external → row.source ∈ active
  apart : rows.Pairwise (Apart wf)

/-- **A firing set leaves a configuration.** -/
theorem RowsRun.legal (wf : WellFormed chart) {rows : List Row} {left entered : List Name}
    (h : RowsRun (index chart) sh rows sh' left entered)
    (hA : (index chart).Legal wf.sound sh.active) (hf : Fireable wf sh.active rows) :
    (index chart).Legal wf.sound sh'.active := by
  induction h with
  | nil => exact hA
  | @cons sh sh' row rows exits enters left entered hrun _ ih =>
    obtain ⟨hdecl, hsrc, hapart⟩ := hf
    have hrow := hdecl row List.mem_cons_self
    have hrowsrc := hsrc row List.mem_cons_self
    rw [List.pairwise_cons] at hapart
    refine ih (hrun.legal wf hrow hA hrowsrc) ⟨?_, ?_, hapart.2⟩
    · exact fun r hr => hdecl r (List.mem_cons_of_mem _ hr)
    · intro r hr hk
      refine hrun.keeps wf hrow hA hrowsrc (hsrc r (List.mem_cons_of_mem _ hr) hk) ?_
      exact fun hk' => hapart.1 r hr hk' hk

theorem path_mem_active (wf : WellFormed chart) {active : Finset Name}
    (hA : (index chart).Legal wf.sound active) {leaf s : Name}
    (hl : leaf ∈ (index chart).leaves active) (hs : s ∈ (index chart).path leaf) : s ∈ active := by
  have hleaf := List.mem_filter.mp hl
  simp only [decide_eq_true_eq] at hleaf
  exact Hierarchy.Legal.anc_mem hA hleaf.2.1 ((Index.mem_path wf.sound hleaf.1).mp hs)

/-- The exit set of an external row whose source is active holds that source and the active
states below the row's top. -/
theorem exitSet_ok (wf : WellFormed chart) {active : Finset Name}
    (hA : (index chart).Legal wf.sound active) (hrow : row ∈ chart.rows)
    (hk : row.kind = .external) (hsrc : row.source ∈ active) :
    ∃ ex, exitSet (index chart) active row = .ok ex ∧ ∀ x, x ∈ ex ↔ x ∈ active ∧
      ((index chart).hierarchy wf.sound).Sub ((index chart).exitTop row) x := by
  have htop := wf.top_mem hrow hk hA hsrc
  have hexits : ∃ l, ((index chart).plan row).exits (index chart) active = .ok l := by
    unfold Plan.exits
    split
    · exact ⟨_, rfl⟩
    · obtain ⟨l, hl, -⟩ := Index.exitOrder_ok hA htop
      exact ⟨l, hl⟩
  obtain ⟨l, hl⟩ := hexits
  refine ⟨l.toFinset, ?_, fun x => ?_⟩
  · simp only [exitSet, hk, ne_eq, not_true_eq_false, if_false, hl]
    rfl
  · rw [List.mem_toFinset]
    exact Plan.mem_exits hA htop hl x

/-- **A selected firing set may run.** -/
theorem select_fireable (wf : WellFormed chart) {active : Finset Name}
    (hA : (index chart).Legal wf.sound active) {ctx : Context κ υ} {world : ω}
    {firing : List Row} {deferring : List Name}
    (h : select chart (index chart) active ctx world = .ok (firing, deferring)) :
    Fireable wf active firing := by
  have hsource : ∀ row ∈ firing, row ∈ chart.rows ∧ row.source ∈ active := by
    intro row hr
    obtain ⟨hm, leaf, hl, hp⟩ := (select_sources h).1 row hr
    exact ⟨hm, path_mem_active wf hA hl hp⟩
  refine ⟨fun row hr => (hsource row hr).1, fun row hr _ => (hsource row hr).2, ?_⟩
  refine (select_disjoint h).imp_of_mem ?_
  intro a b ha hb hdis hak hbk hsub
  obtain ⟨ea, hea, hma⟩ := exitSet_ok wf hA (hsource a ha).1 hak (hsource a ha).2
  obtain ⟨eb, heb, hmb⟩ := exitSet_ok wf hA (hsource b hb).1 hbk (hsource b hb).2
  have hsrc := (hsource b hb).2
  have hbb := (hmb b.source).mpr ⟨hsrc, (wf.domain (hsource b hb).1 hbk).1⟩
  have hba := (hma b.source).mpr ⟨hsrc, hsub⟩
  exact (Finset.disjoint_left.mp (hdis ea eb hea heb)) hba hbb

/-- A single row whose source is active may run. -/
theorem fireable_single (wf : WellFormed chart) {active : Finset Name}
    (hrow : row ∈ chart.rows) (hsrc : row.source ∈ active) : Fireable wf active [row] := by
  refine ⟨?_, ?_, List.pairwise_singleton _ _⟩
  · intro r hr
    rwa [List.mem_singleton.mp hr]
  · intro r hr _
    rwa [List.mem_singleton.mp hr]

/-! ## What an event item comes to -/

theorem decideItem_fired {inst : Instance κ υ ω} {item : Item κ υ} {ctx : Context κ υ} {world : ω}
    {rows : List Row} (h : decideItem inst item ctx world = .ok (.fired rows)) :
    rows = [] ∨
    ∃ deferring, select inst.chart (index inst.chart) inst.active ctx world =
      .ok (rows, deferring) := by
  unfold decideItem at h
  split at h
  · cases h
  · obtain ⟨⟨firing, deferring⟩, hsel, h⟩ := bind_eq_ok.mp h
    simp only at h
    split at h
    · cases h
      exact Or.inr ⟨deferring, hsel⟩
    · split at h
      · cases h
      · split at h
        · cases h
          exact Or.inl rfl
        · cases h

theorem decideItem_deferred {inst : Instance κ υ ω} {item : Item κ υ} {ctx : Context κ υ}
    {world : ω} {states : List Name}
    (h : decideItem inst item ctx world = .ok (.deferred states)) :
    states ≠ [] ∧ select inst.chart (index inst.chart) inst.active ctx world = .ok ([], states) := by
  unfold decideItem at h
  split at h
  · cases h
  · obtain ⟨⟨firing, deferring⟩, hsel, h⟩ := bind_eq_ok.mp h
    simp only at h
    split at h
    · cases h
    next hf =>
      split at h
      next hd =>
        cases h
        rw [ne_eq, Decidable.not_not] at hf
        exact ⟨hd, hf ▸ hsel⟩
      · split at h
        · cases h
        · cases h

/-- **Every firing set a microstep runs may run.** -/
theorem Chosen.fireable {inst : Instance κ υ ω} (wf : WellFormed inst.chart) {item : Item κ υ}
    {world : ω} {rows : List Row} {kind : OutcomeKind}
    (hA : (index inst.chart).Legal wf.sound inst.active)
    (h : Chosen inst item world rows kind) : Fireable wf inst.active rows := by
  have hnil : Fireable wf inst.active [] := ⟨by simp, by simp, List.Pairwise.nil⟩
  cases h with
  | continued _ => exact hnil
  | started _ => exact hnil
  | completed _ ho hr =>
    obtain ⟨hm, hs, -⟩ := enabled_some hr
    refine fireable_single wf hm (hs ▸ ?_)
    by_contra hn
    simp [occurrenceGone, hn] at ho
  | fired _ hd =>
    rcases decideItem_fired hd with rfl | ⟨deferring, hsel⟩
    · exact hnil
    · exact select_fireable wf hA hsel
  | @overflowed states row _ hd hr =>
    obtain ⟨hm, hs, -⟩ := enabled_some hr
    obtain ⟨hne, hsel⟩ := decideItem_deferred hd
    refine fireable_single wf hm (hs ▸ ?_)
    cases states with
    | nil => exact absurd rfl hne
    | cons s states =>
      obtain ⟨leaf, hl, hp⟩ := (select_sources hsel).2 s List.mem_cons_self
      exact path_mem_active wf hA hl hp

/-! ## Configurations -/

/-- A configuration, read off the index: the root is active, every active state's parent is
active, and each region of each active state has exactly one active state. -/
structure Index.Configuration (ix : Index) (active : Finset Name) : Prop where
  declared : ∀ s ∈ active, s ∈ ix.order
  root : ix.root ∈ active
  parent : ∀ s ∈ active, ∀ p, ix.parent s = some p → p ∈ active
  region : ∀ s ∈ active, ∀ slot < (ix.regions s).length,
    ∃! c, c ∈ active ∧ ix.parent c = some s ∧ ix.slot c = slot

theorem Index.configuration_iff {ix : Index} (hs : ix.Sound) {active : Finset Name} :
    ix.Configuration active ↔ ix.Legal hs active := by
  constructor
  · intro h
    exact ⟨fun hm => h.declared _ hm, h.root, fun hm hp => h.parent _ hm _ hp,
      fun hm hi => h.region _ hm _ hi⟩
  · intro h
    exact ⟨fun _ hm => h.declared hm, h.root_mem, fun _ hm _ hp => h.parent_mem hm hp,
      fun _ hm _ hi => h.region hm hi⟩

theorem regionCount_eq_one {ix : Index} {active : Finset Name} {s : Name} {slot : Nat} :
    regionCount ix active s slot = 1 ↔
      ∃! c, c ∈ active ∧ ix.parent c = some s ∧ ix.slot c = slot := by
  rw [regionCount, Finset.card_eq_one]
  constructor
  · rintro ⟨c, hc⟩
    have hm : ∀ x, x ∈ active ∧ ix.parent x = some s ∧ ix.slot x = slot ↔ x = c := by
      intro x
      have hx := Finset.ext_iff.mp hc x
      rwa [Finset.mem_filter, Finset.mem_singleton] at hx
    exact ⟨c, (hm c).mpr rfl, fun x hx => (hm x).mp hx⟩
  · rintro ⟨c, hc, huniq⟩
    refine ⟨c, ?_⟩
    ext x
    rw [Finset.mem_filter, Finset.mem_singleton]
    exact ⟨huniq x, fun h => h ▸ hc⟩

theorem Index.configuration_iff_forall {ix : Index} {active : Finset Name} :
    ix.Configuration active ↔ ix.root ∈ active ∧ ∀ s ∈ active, s ∈ ix.order ∧
      (∀ p ∈ ix.parent s, p ∈ active) ∧
      ∀ slot < (ix.regions s).length, regionCount ix active s slot = 1 := by
  constructor
  · intro h
    exact ⟨h.root, fun s hs => ⟨h.declared s hs, h.parent s hs,
      fun slot hlt => regionCount_eq_one.mpr (h.region s hs slot hlt)⟩⟩
  · rintro ⟨hroot, h⟩
    exact ⟨fun s hs => (h s hs).1, hroot, fun s hs => (h s hs).2.1,
      fun s hs slot hlt => regionCount_eq_one.mp ((h s hs).2.2 slot hlt)⟩

instance {ix : Index} {active : Finset Name} : Decidable (ix.Configuration active) :=
  decidable_of_iff' _ Index.configuration_iff_forall

theorem regionProblem_none {ix : Index} {active : Finset Name} {s : Name} :
    ((ix.regions s).zipIdx.findSome? fun (region, slot) =>
      if regionCount ix active s slot = 1 then none
      else some (ConfigurationProblem.regionCount s (regionCount ix active s slot) region.name)) = none ↔
      ∀ slot < (ix.regions s).length, regionCount ix active s slot = 1 := by
  rw [List.findSome?_eq_none_iff]
  constructor
  · intro h slot hlt
    have := h ((ix.regions s)[slot], slot)
      (List.mk_mem_zipIdx_iff_getElem?.mpr (List.getElem?_eq_getElem hlt))
    by_contra hne
    simp [hne] at this
  · rintro h ⟨region, slot⟩ hm
    have hlt := (List.getElem?_eq_some_iff.mp (List.mk_mem_zipIdx_iff_getElem?.mp hm)).1
    simp [h slot hlt]

theorem stateProblem_none {ix : Index} {active : Finset Name} {s : Name} :
    stateProblem ix active s = none ↔ (∀ p, ix.parent s = some p → p ∈ active) ∧
      ∀ slot < (ix.regions s).length, regionCount ix active s slot = 1 := by
  have hparent : (ix.parent s).filter (· ∉ active) = none ↔
      ∀ p, ix.parent s = some p → p ∈ active := by
    cases ix.parent s with
    | none => simp
    | some p => simp [Option.filter]
  rw [← hparent, ← regionProblem_none]
  unfold stateProblem
  cases (ix.parent s).filter (· ∉ active) with
  | none => simp
  | some p => simp

/-- **`restore` accepts exactly the configurations.** -/
theorem configurationProblem_none {ix : Index} {active : Finset Name} :
    configurationProblem ix active = none ↔ ix.Configuration active := by
  have hmem : ∀ s, s ∈ active.sort (· ≤ ·) ↔ s ∈ active := fun s => Finset.mem_sort _
  unfold configurationProblem
  simp only
  constructor
  · intro h
    split at h
    · cases h
    next hnil =>
      split at h
      · cases h
      next hroot =>
        rw [Decidable.not_not] at hroot
        rw [List.findSome?_eq_none_iff] at h
        have hstate := fun s hs => stateProblem_none.mp (h s ((hmem s).mpr hs))
        refine ⟨fun s hs => ?_, hroot, fun s hs => (hstate s hs).1, fun s hs slot hlt => ?_⟩
        · by_contra hn
          have : s ∈ (active.sort (· ≤ ·)).filter (· ∉ ix.order) :=
            List.mem_filter.mpr ⟨(hmem s).mpr hs, by simpa using hn⟩
          rw [hnil] at this
          cases this
        · exact regionCount_eq_one.mp ((hstate s hs).2 slot hlt)
  · intro h
    split
    next s _ hcons =>
      have hm : s ∈ (active.sort (· ≤ ·)).filter (· ∉ ix.order) :=
        hcons ▸ List.mem_cons_self
      obtain ⟨hs, hn⟩ := List.mem_filter.mp hm
      exact absurd (h.declared s ((hmem s).mp hs)) (by simpa using hn)
    · rw [if_neg (fun hn => hn h.root), List.findSome?_eq_none_iff]
      intro s hs
      exact stateProblem_none.mpr ⟨h.parent s ((hmem s).mp hs), fun slot hlt =>
        regionCount_eq_one.mpr (h.region s ((hmem s).mp hs) slot hlt)⟩

end Dsl41.StateMachine
