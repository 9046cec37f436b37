import Dsl41.StateMachine.Legal

/-!
# The static fall-through check is exact

`fallThrough` picks one hole in each region; a configuration is one choice for every region. The
hole it returns is the leaves of a configuration in which no state answers the event, and it has
a leaf that is not final wherever one such configuration has.

* `fallThroughFrom_some` — a hole is the leaves of a silent configuration
* `fallThroughFrom_of_silent` — a silent configuration gives a hole
* `fallThrough_exact` — both, at the root
-/

namespace Dsl41.StateMachine.Index

open Infra

variable {ix : Index} {event : Name} {excluded : List (Name × Name)}

/-- A state with no row, no deferral and no exclusion for the event. -/
def Silent (ix : Index) (event : Name) (excluded : List (Name × Name)) (s : Name) : Prop :=
  ix.rowsFor s event = [] ∧ event ∉ ix.defer s ∧ (s, event) ∉ excluded

theorem not_silent_iff {s : Name} : ¬ ix.Silent event excluded s ↔
    ix.rowsFor s event ≠ [] ∨ event ∈ ix.defer s ∨ (s, event) ∈ excluded := by
  unfold Silent
  tauto

theorem pickHole_mem {holes : List (List Name)} {h : List Name}
    (hp : ix.pickHole holes = some h) : h ∈ holes := by
  unfold pickHole at hp
  split at hp
  next hf =>
    cases hp
    exact List.mem_of_find?_eq_some hf
  next => exact List.mem_of_mem_head? hp

theorem pickHole_of_mem {holes : List (List Name)} {h : List Name} (hm : h ∈ holes) :
    ∃ h', ix.pickHole holes = some h' ∧ ((∃ l ∈ h, ix.final l = false) →
      ∃ l ∈ h', ix.final l = false) := by
  unfold pickHole
  split
  next h' hf =>
    refine ⟨h', rfl, fun _ => ?_⟩
    have := List.find?_some hf
    simpa using this
  next hf =>
    have hne : holes ≠ [] := List.ne_nil_of_mem hm
    refine ⟨holes.head hne, List.head?_eq_some_head hne, fun ⟨l, hl, hfin⟩ => ?_⟩
    have hall : h.all ix.final = true := by
      simpa using List.find?_eq_none.mp hf h hm
    rw [List.all_eq_true.mp hall l hl] at hfin
    cases hfin

/-! ## A hole is a silent configuration -/

/-- **A hole is the leaves of a complete configuration in which every state is silent.** -/
theorem fallThroughFrom_some (hs : ix.Sound) : ∀ (n : Nat) {s : Name} {hole : List Name},
    s ∈ ix.order → ix.fallThroughFrom event excluded n s = some hole →
    ∃ B : Set Name, (ix.hierarchy hs).Complete s B ∧ (∀ x ∈ B, ix.Silent event excluded x) ∧
      ∀ x, x ∈ hole ↔ x ∈ B ∧ ix.regions x = []
  | 0, s, hole, _, h => by cases h
  | n + 1, s, hole, hso, h => by
    unfold fallThroughFrom at h
    split at h
    · cases h
    next hquiet =>
      have hsil : ix.Silent event excluded s := by
        by_contra hn
        exact hquiet (not_silent_iff.mp hn)
      split at h
      next hr =>
        -- a leaf is its own configuration
        cases h
        have hnode := Hierarchy.Complete.node (H := ix.hierarchy hs) (c := fun _ => s)
          (C := fun _ => ∅) hso (by simp [hierarchy, hr])
        refine ⟨_, hnode, ?_, ?_⟩
        · rintro x (rfl | ⟨i, -, hx⟩)
          · exact hsil
          · cases hx
        · intro x
          simp only [List.mem_singleton, Set.mem_ofPred_eq, Set.mem_empty_iff_false, and_false,
            exists_false, or_false]
          exact ⟨fun h => ⟨h, h ▸ hr⟩, fun h => h.1⟩
      next hr =>
        obtain ⟨holes, hholes, rfl⟩ := Option.map_eq_some_iff.mp h
        have hall := mapM_eq_some.mp hholes
        -- region by region: the child that the picked hole belongs to, and its configuration
        have hregion : ∀ i, ∃ c C, ∀ hi : i < (ix.regions s).length,
            ix.parent c = some s ∧ ix.slot c = i ∧ (ix.hierarchy hs).Complete c C ∧
            (∀ x ∈ C, ix.Silent event excluded x) ∧
            ∀ x, x ∈ holes.get ⟨i, hall.length_eq ▸ hi⟩ ↔ x ∈ C ∧ ix.regions x = [] := by
          intro i
          by_cases hi : i < (ix.regions s).length
          · have hpick := hall.get hi (hall.length_eq ▸ hi)
            simp only [List.get_eq_getElem] at hpick
            obtain ⟨st, hst, hrec⟩ := List.mem_filterMap.mp (pickHole_mem hpick)
            obtain ⟨hco, hcp, hci, -⟩ := child_of_region hs hso (List.getElem?_eq_getElem hi)
              (List.mem_map_of_mem hst)
            obtain ⟨C, hC, hCs, hCl⟩ := fallThroughFrom_some hs n hco hrec
            exact ⟨st.name, C, fun _ => ⟨hcp, hci, hC, hCs, hCl⟩⟩
          · exact ⟨s, ∅, fun h => absurd h hi⟩
        choose c C hcC using hregion
        have hnode := Hierarchy.Complete.node (H := ix.hierarchy hs) (c := c) (C := C) hso
          fun i hi => ⟨(hcC i hi).1, (hcC i hi).2.1, (hcC i hi).2.2.1⟩
        refine ⟨_, hnode, ?_, ?_⟩
        · rintro x (rfl | ⟨i, hi, hx⟩)
          · exact hsil
          · exact (hcC i hi).2.2.2.1 x hx
        · intro x
          rw [List.mem_flatten]
          constructor
          · rintro ⟨l, hl, hx⟩
            obtain ⟨i, hi, rfl⟩ := List.mem_iff_getElem.mp hl
            have hi' : i < (ix.regions s).length := hall.length_eq ▸ hi
            have hxC := ((hcC i hi').2.2.2.2 x).mp hx
            exact ⟨Or.inr ⟨i, hi', hxC.1⟩, hxC.2⟩
          · rintro ⟨rfl | ⟨i, hi, hx⟩, hxr⟩
            · exact absurd hxr hr
            · exact ⟨_, List.get_mem _ _, ((hcC i hi).2.2.2.2 x).mpr ⟨hx, hxr⟩⟩

/-! ## A silent configuration gives a hole -/

/-- **A complete configuration in which every state is silent gives a hole**, with a leaf that is
not final when the configuration has one. -/
theorem fallThroughFrom_of_silent (hs : ix.Sound) : ∀ (n : Nat) {s : Name} {B : Set Name},
    ix.height ≤ ix.depth s + n → (ix.hierarchy hs).Complete s B →
    (∀ x ∈ B, ix.Silent event excluded x) →
    ∃ hole, ix.fallThroughFrom event excluded n s = some hole ∧
      ((∃ x ∈ B, ix.regions x = [] ∧ ix.final x = false) → ∃ l ∈ hole, ix.final l = false)
  | 0, s, B, hn, hB, _ => by
    have := depth_lt_height hs (hB.declared hB.top_mem)
    omega
  | n + 1, s, B, hn, hB, hsil => by
    have hso : s ∈ ix.order := hB.declared hB.top_mem
    have hquiet : ¬ (ix.rowsFor s event ≠ [] ∨ event ∈ ix.defer s ∨ (s, event) ∈ excluded) :=
      fun h => not_silent_iff.mpr h (hsil s hB.top_mem)
    unfold fallThroughFrom
    rw [if_neg hquiet]
    by_cases hr : ix.regions s = []
    · rw [if_pos hr]
      refine ⟨[s], rfl, fun ⟨x, hx, _, hfin⟩ => ⟨s, List.mem_singleton_self s, ?_⟩⟩
      rcases hB.cases hx with rfl | ⟨i, hi, -⟩
      · exact hfin
      · have : (ix.hierarchy hs).regions s = 0 := by simp [hierarchy, hr]
        omega
    · rw [if_neg hr]
      -- in each region the state that the configuration holds has a hole
      have hregion : ∀ i (hi : i < (ix.regions s).length), ∃ h,
          ix.pickHole ((ix.regions s)[i].states.filterMap fun st =>
            ix.fallThroughFrom event excluded n st.name) = some h ∧
          ∀ c, (ix.hierarchy hs).ChildAt B s i c →
            (∃ x ∈ B, (ix.hierarchy hs).Sub c x ∧ ix.regions x = [] ∧ ix.final x = false) →
            ∃ l ∈ h, ix.final l = false := by
        intro i hi
        obtain ⟨c, hc, huniq⟩ := hB.region hB.top_mem hi
        obtain ⟨hcB, hcp, hci⟩ := hc
        have hco : c ∈ ix.order := hB.declared hcB
        have hcr : c ≠ ix.root := by
          rintro rfl
          have hp : ix.parent ix.root = some s := hcp
          rw [parent_root hs] at hp
          cases hp
        obtain ⟨p, hp, -, hd, region, hreg, hmem⟩ := exists_region hs hco hcr
        rw [show ix.parent c = some s from hcp] at hp
        cases hp
        rw [show ix.slot c = i from hci, List.getElem?_eq_getElem hi] at hreg
        cases hreg
        obtain ⟨st, hst, rfl⟩ := List.mem_map.mp hmem
        obtain ⟨hole, hhole, hfinal⟩ := fallThroughFrom_of_silent hs n (s := st.name)
          (B := {x | x ∈ B ∧ (ix.hierarchy hs).Sub st.name x}) (by omega) (hB.child hcB)
          fun x hx => hsil x hx.1
        have hin : hole ∈ (ix.regions s)[i].states.filterMap fun st =>
            ix.fallThroughFrom event excluded n st.name := List.mem_filterMap.mpr ⟨st, hst, hhole⟩
        obtain ⟨h, hh, hpick⟩ := pickHole_of_mem hin
        refine ⟨h, hh, ?_⟩
        rintro d hd' ⟨x, hx, hdx, hxr, hxf⟩
        rw [huniq d hd'] at hdx
        exact hpick (hfinal ⟨x, ⟨hx, hdx⟩, hxr, hxf⟩)
      obtain ⟨holes, hholes⟩ := exists_mapM_eq_some (l := ix.regions s)
        (f := fun region => ix.pickHole (region.states.filterMap fun st =>
          ix.fallThroughFrom event excluded n st.name)) fun region hm => by
            obtain ⟨i, hi, rfl⟩ := List.mem_iff_getElem.mp hm
            obtain ⟨h, hh, -⟩ := hregion i hi
            exact ⟨h, hh⟩
      refine ⟨holes.flatten, by rw [hholes]; rfl, ?_⟩
      rintro ⟨x, hx, hxr, hxf⟩
      rcases hB.cases hx with rfl | ⟨i, hi, c, hc, hcx⟩
      · exact absurd hxr hr
      · obtain ⟨h, hh, hl⟩ := hregion i hi
        obtain ⟨l, hlh, hlf⟩ := hl c hc ⟨x, hx, hcx, hxr, hxf⟩
        have hall := mapM_eq_some.mp hholes
        have hpick := hall.get hi (hall.length_eq ▸ hi)
        simp only [List.get_eq_getElem] at hpick
        have heq : h = holes.get ⟨i, hall.length_eq ▸ hi⟩ :=
          Option.some.inj (hh.symm.trans hpick)
        exact ⟨l, List.mem_flatten.mpr ⟨_, List.get_mem _ _, heq ▸ hlh⟩, hlf⟩

/-! ## At the root -/

theorem mem_leaves {active : Finset Name} {s : Name} :
    s ∈ ix.leaves active ↔ s ∈ ix.order ∧ s ∈ active ∧ ix.regions s = [] := by
  simp [leaves]

/--
**The static check is exact.**

It returns a hole with a leaf that is not final if and only if some configuration has such a leaf
and no active state with a row, a deferral or an exclusion for the event.
-/
theorem fallThrough_iff (hs : ix.Sound) :
    (∃ hole, ix.fallThrough event excluded ix.root = some hole ∧ ∃ l ∈ hole, ix.final l = false) ↔
    ∃ active, ix.Configuration active ∧ (∃ l ∈ ix.leaves active, ix.final l = false) ∧
      ∀ s ∈ active, ix.Silent event excluded s := by
  constructor
  · rintro ⟨hole, hh, l, hl, hlf⟩
    obtain ⟨B, hB, hsil, hleaf⟩ := fallThroughFrom_some hs ix.height (root_mem hs) hh
    classical
    have hmem : ∀ x, x ∈ ix.order.toFinset.filter (· ∈ B) ↔ x ∈ B := by
      intro x
      rw [Finset.mem_filter, List.mem_toFinset]
      exact ⟨fun h => h.2, fun h => ⟨hB.declared h, h⟩⟩
    have hset : {x | x ∈ ix.order.toFinset.filter (· ∈ B)} = B := Set.ext hmem
    refine ⟨ix.order.toFinset.filter (· ∈ B), (configuration_iff hs).mpr ?_, ⟨l, ?_, hlf⟩, ?_⟩
    · unfold Legal
      rw [hset]
      exact Hierarchy.complete_root_iff.mp hB
    · obtain ⟨hlB, hlr⟩ := (hleaf l).mp hl
      exact mem_leaves.mpr ⟨hB.declared hlB, (hmem l).mpr hlB, hlr⟩
    · exact fun s hsm => hsil s ((hmem s).mp hsm)
  · rintro ⟨active, hA, ⟨l, hl, hlf⟩, hsil⟩
    have hB : (ix.hierarchy hs).Complete ix.root {s | s ∈ active} :=
      Hierarchy.complete_root_iff.mpr ((configuration_iff hs).mp hA)
    obtain ⟨hole, hh, hfinal⟩ := fallThroughFrom_of_silent hs ix.height (Nat.le_add_left _ _) hB
      hsil
    obtain ⟨-, hla, hlr⟩ := mem_leaves.mp hl
    exact ⟨hole, hh, hfinal ⟨l, hla, hlr, hlf⟩⟩

end Dsl41.StateMachine.Index
