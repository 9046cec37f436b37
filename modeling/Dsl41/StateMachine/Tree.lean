import Dsl41.Infra.Hierarchy
import Dsl41.StateMachine.Chart

/-!
# The tree behind an index

A chart whose state names are unique is a `Hierarchy` over names: `parent`, `slot`, `depth` and
`regions` are read off its index. This file proves the laws of the hierarchy from the way
`addState` lists the tree, and what a path says about ancestors.
-/

namespace Dsl41.StateMachine

open Infra

/-! ## How `addState` lists the tree -/

/-- `c` is a child of `p`. -/
def Entry.ChildOf (c p : Entry) : Prop :=
  c.parent = some p.name ∧ c.depth = p.depth + 1 ∧
    ∃ r, p.state.regions[c.slot]? = some r ∧ c.state ∈ r.states

mutual

theorem addState_parent : ∀ (s : State) (parent : Option Name) (slot depth : Nat),
    ∀ e ∈ addState parent slot depth s,
      e = ⟨s, parent, slot, depth⟩ ∨ ∃ p ∈ addState parent slot depth s, e.ChildOf p
  | .mk n rs a b d f w st, parent, slot, depth, e, he => by
    rw [addState, List.mem_cons] at he
    rcases he with he | he
    · exact Or.inl he
    · refine Or.inr ?_
      rcases addRegions_parent rs n 0 (depth + 1) e he with ⟨hp, hd, i, r, hr, hs, hm⟩ | ⟨p, hp, hc⟩
      · refine ⟨⟨.mk n rs a b d f w st, parent, slot, depth⟩, ?_, hp, hd, r, ?_, hm⟩
        · rw [addState]; exact List.mem_cons_self
        · rw [Nat.zero_add] at hs; rw [hs]; exact hr
      · refine ⟨p, ?_, hc⟩
        rw [addState]; exact List.mem_cons_of_mem _ hp

theorem addRegions_parent : ∀ (rs : List Region) (owner : Name) (slot depth : Nat),
    ∀ e ∈ addRegions owner slot depth rs,
      (e.parent = some owner ∧ e.depth = depth ∧
        ∃ i r, rs[i]? = some r ∧ e.slot = slot + i ∧ e.state ∈ r.states) ∨
      ∃ p ∈ addRegions owner slot depth rs, e.ChildOf p
  | [], _, _, _, e, he => by rw [addRegions] at he; cases he
  | .mk rn ri ss :: rs, owner, slot, depth, e, he => by
    rw [addRegions, List.mem_append] at he
    rcases he with he | he
    · rcases addStates_parent ss owner slot depth e he with ⟨hp, hd, hs, hm⟩ | ⟨p, hp, hc⟩
      · exact Or.inl ⟨hp, hd, 0, .mk rn ri ss, rfl, hs, hm⟩
      · refine Or.inr ⟨p, ?_, hc⟩
        rw [addRegions]; exact List.mem_append_left _ hp
    · rcases addRegions_parent rs owner (slot + 1) depth e he with
        ⟨hp, hd, i, r, hr, hs, hm⟩ | ⟨p, hp, hc⟩
      · exact Or.inl ⟨hp, hd, i + 1, r, hr, by omega, hm⟩
      · refine Or.inr ⟨p, ?_, hc⟩
        rw [addRegions]; exact List.mem_append_right _ hp

theorem addStates_parent : ∀ (ss : List State) (owner : Name) (slot depth : Nat),
    ∀ e ∈ addStates owner slot depth ss,
      (e.parent = some owner ∧ e.depth = depth ∧ e.slot = slot ∧ e.state ∈ ss) ∨
      ∃ p ∈ addStates owner slot depth ss, e.ChildOf p
  | [], _, _, _, e, he => by rw [addStates] at he; cases he
  | s :: ss, owner, slot, depth, e, he => by
    rw [addStates, List.mem_append] at he
    rcases he with he | he
    · rcases addState_parent s (some owner) slot depth e he with rfl | ⟨p, hp, hc⟩
      · exact Or.inl ⟨rfl, rfl, rfl, List.mem_cons_self⟩
      · refine Or.inr ⟨p, ?_, hc⟩
        rw [addStates]; exact List.mem_append_left _ hp
    · rcases addStates_parent ss owner slot depth e he with ⟨hp, hd, hs, hm⟩ | ⟨p, hp, hc⟩
      · exact Or.inl ⟨hp, hd, hs, List.mem_cons_of_mem _ hm⟩
      · refine Or.inr ⟨p, ?_, hc⟩
        rw [addStates]; exact List.mem_append_right _ hp

end

theorem addState_self (s : State) (parent : Option Name) (slot depth : Nat) :
    ⟨s, parent, slot, depth⟩ ∈ addState parent slot depth s := by
  cases s
  rw [addState]
  exact List.mem_cons_self

theorem addStates_mem {s : State} : ∀ {ss : List State}, s ∈ ss → ∀ (owner : Name)
    (slot depth : Nat), ⟨s, some owner, slot, depth⟩ ∈ addStates owner slot depth ss
  | t :: ss, h, owner, slot, depth => by
    rw [addStates, List.mem_append]
    rcases List.mem_cons.mp h with rfl | h
    · exact Or.inl (addState_self s _ _ _)
    · exact Or.inr (addStates_mem h owner slot depth)

theorem addRegions_mem {s : State} : ∀ {rs : List Region} {i : Nat} {r : Region},
    rs[i]? = some r → s ∈ r.states → ∀ (owner : Name) (slot depth : Nat),
      ⟨s, some owner, slot + i, depth⟩ ∈ addRegions owner slot depth rs
  | .mk rn ri ss :: rs, 0, r, hr, hs, owner, slot, depth => by
    rw [addRegions, List.mem_append]
    cases hr
    exact Or.inl (addStates_mem hs owner slot depth)
  | .mk rn ri ss :: rs, i + 1, r, hr, hs, owner, slot, depth => by
    rw [addRegions, List.mem_append, show slot + (i + 1) = slot + 1 + i by omega]
    exact Or.inr (addRegions_mem (by simpa using hr) hs owner (slot + 1) depth)

mutual

theorem addState_child : ∀ (s : State) (parent : Option Name) (slot depth : Nat),
    ∀ p ∈ addState parent slot depth s, ∀ {i : Nat} {r : Region} {c : State},
      p.state.regions[i]? = some r → c ∈ r.states →
      ⟨c, some p.name, i, p.depth + 1⟩ ∈ addState parent slot depth s
  | .mk n rs a b d f w st, parent, slot, depth, p, hp, i, r, c, hr, hc => by
    rw [addState, List.mem_cons] at hp ⊢
    rcases hp with rfl | hp
    · have h := addRegions_mem hr hc n 0 (depth + 1)
      rw [Nat.zero_add] at h
      exact Or.inr h
    · exact Or.inr (addRegions_child rs n 0 (depth + 1) p hp hr hc)

theorem addRegions_child : ∀ (rs : List Region) (owner : Name) (slot depth : Nat),
    ∀ p ∈ addRegions owner slot depth rs, ∀ {i : Nat} {r : Region} {c : State},
      p.state.regions[i]? = some r → c ∈ r.states →
      ⟨c, some p.name, i, p.depth + 1⟩ ∈ addRegions owner slot depth rs
  | [], _, _, _, p, hp, _, _, _, _, _ => by rw [addRegions] at hp; cases hp
  | .mk rn ri ss :: rs, owner, slot, depth, p, hp, i, r, c, hr, hc => by
    rw [addRegions, List.mem_append] at hp ⊢
    rcases hp with hp | hp
    · exact Or.inl (addStates_child ss owner slot depth p hp hr hc)
    · exact Or.inr (addRegions_child rs owner (slot + 1) depth p hp hr hc)

theorem addStates_child : ∀ (ss : List State) (owner : Name) (slot depth : Nat),
    ∀ p ∈ addStates owner slot depth ss, ∀ {i : Nat} {r : Region} {c : State},
      p.state.regions[i]? = some r → c ∈ r.states →
      ⟨c, some p.name, i, p.depth + 1⟩ ∈ addStates owner slot depth ss
  | [], _, _, _, p, hp, _, _, _, _, _ => by rw [addStates] at hp; cases hp
  | s :: ss, owner, slot, depth, p, hp, i, r, c, hr, hc => by
    rw [addStates, List.mem_append] at hp ⊢
    rcases hp with hp | hp
    · exact Or.inl (addState_child s (some owner) slot depth p hp hr hc)
    · exact Or.inr (addStates_child ss owner slot depth p hp hr hc)

end

/-! ## Looking a name up -/

namespace Index

variable {ix : Index}

/-- What the index of a chart with unique names satisfies. -/
structure Sound (ix : Index) : Prop where
  nodup : ix.order.Nodup
  top : ∃ e ∈ ix.entries, e.name = ix.root ∧ e.parent = none ∧ e.depth = 0
  parent_of : ∀ e ∈ ix.entries, e.name = ix.root ∨ ∃ p ∈ ix.entries, e.ChildOf p
  child_of : ∀ p ∈ ix.entries, ∀ {i : Nat} {r : Region} {c : State},
    p.state.regions[i]? = some r → c ∈ r.states →
    ⟨c, some p.name, i, p.depth + 1⟩ ∈ ix.entries

/-- The index of a chart is sound once its state names are unique. -/
theorem sound_index {κ υ ω : Type} {chart : Statechart κ υ ω} (h : (index chart).order.Nodup) :
    (index chart).Sound where
  nodup := h
  top := ⟨_, addState_self chart.root none 0 0, rfl, rfl, rfl⟩
  parent_of := by
    intro e he
    rcases addState_parent chart.root none 0 0 e he with rfl | h
    · exact Or.inl rfl
    · exact Or.inr h
  child_of := fun p hp => addState_child chart.root none 0 0 p hp

theorem entry?_of_mem (h : ix.order.Nodup) {e : Entry} (he : e ∈ ix.entries) :
    ix.entry? e.name = some e := by
  have key : ∀ l : List Entry, (l.map Entry.name).Nodup → e ∈ l →
      l.find? (fun x => decide (x.name = e.name)) = some e := by
    intro l
    induction l with
    | nil => intro _ h; cases h
    | cons x l ih =>
      intro hnd hm
      rw [List.map_cons, List.nodup_cons] at hnd
      rcases List.mem_cons.mp hm with rfl | hm
      · simp
      · have hne : x.name ≠ e.name := fun hx => hnd.1 (hx ▸ List.mem_map_of_mem hm)
        rw [List.find?_cons_of_neg (by simpa using hne)]
        exact ih hnd.2 hm
  refine key ix.entries.reverse ?_ (List.mem_reverse.mpr he)
  rw [List.map_reverse, List.nodup_reverse]
  exact h

theorem mem_of_entry? {s : Name} {e : Entry} (h : ix.entry? s = some e) :
    e ∈ ix.entries ∧ e.name = s := by
  have hm := List.mem_of_find?_eq_some h
  have hp := List.find?_some h
  exact ⟨List.mem_reverse.mp hm, by simpa using hp⟩

theorem exists_entry {s : Name} (h : s ∈ ix.order) : ∃ e ∈ ix.entries, e.name = s := by
  simpa [order] using h

theorem mem_order {e : Entry} (h : e ∈ ix.entries) : e.name ∈ ix.order := List.mem_map_of_mem h

section Lookup

variable (hs : ix.Sound) {e : Entry} (he : e ∈ ix.entries)
include hs he

theorem parent_entry : ix.parent e.name = e.parent := by
  simp [parent, entry?_of_mem hs.nodup he]

theorem slot_entry : ix.slot e.name = e.slot := by simp [slot, entry?_of_mem hs.nodup he]

theorem depth_entry : ix.depth e.name = e.depth := by simp [depth, entry?_of_mem hs.nodup he]

theorem state?_entry : ix.state? e.name = some e.state := by
  simp [state?, entry?_of_mem hs.nodup he]

theorem regions_entry : ix.regions e.name = e.state.regions := by
  simp [regions, state?_entry hs he]

end Lookup

theorem parent_some_mem {s p : Name} (h : ix.parent s = some p) : s ∈ ix.order := by
  cases he : ix.entry? s with
  | none => simp [parent, he] at h
  | some e =>
    obtain ⟨hm, rfl⟩ := mem_of_entry? he
    exact mem_order hm

/-! ## The hierarchy of an index -/

theorem parent_root (hs : ix.Sound) : ix.parent ix.root = none := by
  obtain ⟨e, he, hn, hp, -⟩ := hs.top
  rw [← hn, parent_entry hs he, hp]

theorem root_mem (hs : ix.Sound) : ix.root ∈ ix.order := by
  obtain ⟨e, he, hn, -, -⟩ := hs.top
  exact hn ▸ mem_order he

theorem depth_root (hs : ix.Sound) : ix.depth ix.root = 0 := by
  obtain ⟨e, he, hn, -, hd⟩ := hs.top
  rw [← hn, depth_entry hs he, hd]

/-- A declared state other than the root is a state of one region of its parent. -/
theorem exists_region (hs : ix.Sound) {s : Name} (h : s ∈ ix.order) (hr : s ≠ ix.root) :
    ∃ p, ix.parent s = some p ∧ p ∈ ix.order ∧ ix.depth s = ix.depth p + 1 ∧
      ∃ r, (ix.regions p)[ix.slot s]? = some r ∧ s ∈ r.states.map State.name := by
  obtain ⟨e, he, rfl⟩ := exists_entry h
  rcases hs.parent_of e he with h' | ⟨p, hp, hpar, hdep, r, hreg, hst⟩
  · exact absurd h' hr
  · refine ⟨p.name, by rw [parent_entry hs he, hpar], mem_order hp, ?_, r, ?_, ?_⟩
    · rw [depth_entry hs he, depth_entry hs hp, hdep]
    · rw [regions_entry hs hp, slot_entry hs he, hreg]
    · exact List.mem_map_of_mem hst

/-- A state listed in a region is that region's child. -/
theorem child_of_region (hs : ix.Sound) {p c : Name} {i : Nat} {r : Region}
    (hp : p ∈ ix.order) (hr : (ix.regions p)[i]? = some r) (hc : c ∈ r.states.map State.name) :
    c ∈ ix.order ∧ ix.parent c = some p ∧ ix.slot c = i ∧ ix.depth c = ix.depth p + 1 := by
  obtain ⟨e, he, rfl⟩ := exists_entry hp
  obtain ⟨st, hst, rfl⟩ := List.mem_map.mp hc
  rw [regions_entry hs he] at hr
  have hm := hs.child_of e he hr hst
  have hd := depth_entry hs he
  refine ⟨mem_order hm, parent_entry hs hm, slot_entry hs hm, ?_⟩
  rw [hd]
  exact depth_entry hs hm

/-- The hierarchy of state names. -/
def hierarchy (ix : Index) (hs : ix.Sound) : Hierarchy Name where
  root := ix.root
  parent := ix.parent
  slot := ix.slot
  regions := fun s => (ix.regions s).length
  depth := ix.depth
  declared := (· ∈ ix.order)
  declared_root := root_mem hs
  parent_root := parent_root hs
  depth_parent := by
    intro s p h hp
    have hr : s ≠ ix.root := by rintro rfl; rw [parent_root hs] at hp; cases hp
    obtain ⟨q, hq, -, hd, -⟩ := exists_region hs h hr
    rw [hp] at hq; cases hq; exact hd
  parent_declared := by
    intro s h
    by_cases hr : s = ix.root
    · exact Or.inl hr
    · obtain ⟨p, hp, hpo, -, r, hreg, -⟩ := exists_region hs h hr
      exact Or.inr ⟨p, hp, hpo, (List.getElem?_eq_some_iff.mp hreg).1⟩

theorem depth_lt_height (hs : ix.Sound) {s : Name} (h : s ∈ ix.order) :
    ix.depth s < ix.height := by
  obtain ⟨e, he, rfl⟩ := exists_entry h
  rw [depth_entry hs he]
  have hle : ∀ l : List Nat, ∀ n ∈ l, n ≤ l.foldr max 0 := by
    intro l
    induction l with
    | nil => intro n h; cases h
    | cons a l ih =>
      intro n hn
      rcases List.mem_cons.mp hn with rfl | hn
      · exact le_max_left _ _
      · exact le_trans (ih n hn) (le_max_right _ _)
  exact Nat.lt_succ_of_le (hle _ _ (List.mem_map_of_mem he))

end Index

end Dsl41.StateMachine
