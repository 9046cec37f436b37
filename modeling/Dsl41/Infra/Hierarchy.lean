import Mathlib.Data.Set.Basic
import Mathlib.Logic.Relation
import Mathlib.Data.Nat.Basic

/-!
# State hierarchies with orthogonal regions

A hierarchy is a tree of states in which every state holds its children in numbered regions.
A *configuration* is a set of states closed upwards that has exactly one child of each of its
members in each region of that member.

* `Hierarchy.Legal` — a configuration of the whole tree
* `Hierarchy.Complete t` — a configuration of the subtree at `t`
* `Legal.replace` — cutting an active subtree and grafting a complete one into the same
  region gives a configuration again
* `Complete.node` and `Complete.child` — composition and decomposition at a state

Nothing here knows how a tree is written down or how transitions are chosen.
-/

namespace Dsl41.Infra

/-- A tree of states whose children live in numbered regions. -/
structure Hierarchy (σ : Type*) where
  root : σ
  parent : σ → Option σ
  slot : σ → Nat
  regions : σ → Nat
  depth : σ → Nat
  declared : σ → Prop
  declared_root : declared root
  parent_root : parent root = none
  depth_parent : ∀ {s p}, declared s → parent s = some p → depth s = depth p + 1
  parent_declared : ∀ {s}, declared s → s = root ∨
    ∃ p, parent s = some p ∧ declared p ∧ slot s < regions p

namespace Hierarchy

variable {σ : Type*} (H : Hierarchy σ)

/-- `x` is `t` or lies below it. -/
def Sub (t x : σ) : Prop := Relation.ReflTransGen (fun a b => H.parent b = some a) t x

/-- `c` is the child that `A` holds in region `i` of `s`. -/
def ChildAt (A : Set σ) (s : σ) (i : Nat) (c : σ) : Prop :=
  c ∈ A ∧ H.parent c = some s ∧ H.slot c = i

/-- A configuration of the whole hierarchy. -/
structure Legal (A : Set σ) : Prop where
  declared : ∀ {s}, s ∈ A → H.declared s
  root_mem : H.root ∈ A
  parent_mem : ∀ {s p}, s ∈ A → H.parent s = some p → p ∈ A
  region : ∀ {s i}, s ∈ A → i < H.regions s → ∃! c, H.ChildAt A s i c

/-- A configuration of the subtree at `t`. -/
structure Complete (t : σ) (B : Set σ) : Prop where
  declared : ∀ {s}, s ∈ B → H.declared s
  top_mem : t ∈ B
  parent_mem : ∀ {s}, s ∈ B → s = t ∨ ∃ p ∈ B, H.parent s = some p
  region : ∀ {s i}, s ∈ B → i < H.regions s → ∃! c, H.ChildAt B s i c

variable {H} {A B : Set σ} {s t u x p : σ} {i : Nat}

/-! ## Ancestors -/

theorem Sub.refl : H.Sub t t := Relation.ReflTransGen.refl

theorem Sub.trans (h : H.Sub s t) (h' : H.Sub t u) : H.Sub s u :=
  Relation.ReflTransGen.trans h h'

theorem Sub.of_parent (h : H.parent x = some p) : H.Sub p x :=
  Relation.ReflTransGen.single h

theorem Sub.tail (h : H.Sub t p) (hx : H.parent x = some p) : H.Sub t x :=
  Relation.ReflTransGen.tail h hx

/-- A descendant is the state itself or has its parent among the descendants. -/
theorem sub_iff : H.Sub t x ↔ x = t ∨ ∃ p, H.parent x = some p ∧ H.Sub t p := by
  constructor
  · intro h
    rcases Relation.ReflTransGen.cases_tail h with rfl | ⟨p, hp, hx⟩
    · exact Or.inl rfl
    · exact Or.inr ⟨p, hx, hp⟩
  · rintro (rfl | ⟨p, hx, hp⟩)
    · exact Sub.refl
    · exact hp.tail hx

theorem sub_root_iff : H.Sub t H.root ↔ t = H.root := by
  rw [sub_iff]
  constructor
  · rintro (h | ⟨p, hp, -⟩)
    · exact h.symm
    · rw [H.parent_root] at hp; cases hp
  · exact fun h => Or.inl h.symm

theorem parent_declared_of (hs : H.declared s) (hp : H.parent s = some p) :
    H.declared p ∧ H.slot s < H.regions p := by
  rcases H.parent_declared hs with rfl | ⟨q, hq, hd, hi⟩
  · rw [H.parent_root] at hp; cases hp
  · rw [hp] at hq; cases hq; exact ⟨hd, hi⟩

theorem Sub.declared (h : H.Sub t x) (hx : H.declared x) : H.declared t := by
  induction h with
  | refl => exact hx
  | tail _ hp ih => exact ih (parent_declared_of hx hp).1

theorem Sub.depth_le (h : H.Sub t x) (hx : H.declared x) : H.depth t ≤ H.depth x := by
  induction h with
  | refl => exact le_rfl
  | tail _ hp ih =>
    have hd := H.depth_parent hx hp
    have := ih (parent_declared_of hx hp).1
    omega

/-- A state is never below its own child. -/
theorem not_sub_parent (hs : H.declared s) (hp : H.parent s = some p) : ¬ H.Sub s p := by
  intro h
  have h1 := h.depth_le (parent_declared_of hs hp).1
  have h2 := H.depth_parent hs hp
  omega

theorem Sub.antisymm (h : H.Sub s t) (h' : H.Sub t s) (hs : H.declared s) : s = t := by
  rcases sub_iff.mp h with rfl | ⟨p, hp, hsp⟩
  · rfl
  · exact absurd (h'.trans hsp) (not_sub_parent (h'.declared hs) hp)

/-- Two ancestors of one state are comparable. -/
theorem Sub.total (h : H.Sub s x) (h' : H.Sub t x) : H.Sub s t ∨ H.Sub t s := by
  induction h with
  | refl => exact Or.inr h'
  | @tail b c hb hc ih =>
    rcases sub_iff.mp h' with rfl | ⟨p, hp, htp⟩
    · exact Or.inl (hb.tail hc)
    · rw [hc] at hp; cases hp; exact ih htp

/-! ## Members of a configuration -/

theorem Legal.anc_mem (hA : H.Legal A) (hx : x ∈ A) (h : H.Sub t x) : t ∈ A := by
  induction h with
  | refl => exact hx
  | tail _ hp ih => exact ih (hA.parent_mem hx hp)

theorem Complete.sub {x : σ} (hB : H.Complete t B) (hx : x ∈ B) : H.Sub t x := by
  rcases hB.parent_mem hx with rfl | ⟨p, hp, hxp⟩
  · exact Sub.refl
  · have := H.depth_parent (hB.declared hx) hxp
    exact (hB.sub hp).tail hxp
termination_by H.depth x

theorem Complete.anc_mem (hB : H.Complete t B) (hx : x ∈ B) (hs : H.Sub s x) (ht : H.Sub t s) :
    s ∈ B := by
  induction hs with
  | refl => exact hx
  | @tail b c hb hc ih =>
    rcases hB.parent_mem hx with rfl | ⟨p, hp, hxp⟩
    · have hc' := not_sub_parent (hB.declared hx) hc
      exact absurd (ht.trans hb) hc'
    · rw [hc] at hxp; cases hxp; exact ih hp

/-- A configuration is a complete subtree configuration at the root. -/
theorem complete_root_iff : H.Complete H.root A ↔ H.Legal A := by
  constructor
  · intro h
    refine ⟨h.declared, h.top_mem, ?_, h.region⟩
    intro s p hs hp
    rcases h.parent_mem hs with rfl | ⟨q, hq, hsq⟩
    · rw [H.parent_root] at hp; cases hp
    · rw [hp] at hsq; cases hsq; exact hq
  · intro h
    refine ⟨h.declared, h.root_mem, ?_, h.region⟩
    intro s hs
    rcases H.parent_declared (h.declared hs) with rfl | ⟨p, hp, -, -⟩
    · exact Or.inl rfl
    · exact Or.inr ⟨p, h.parent_mem hs hp, hp⟩

/-- The active subtree at an active state is a complete configuration of that subtree. -/
theorem Legal.subtree (hA : H.Legal A) (ht : t ∈ A) :
    H.Complete t {x | x ∈ A ∧ H.Sub t x} := by
  refine ⟨fun h => hA.declared h.1, ⟨ht, Sub.refl⟩, ?_, ?_⟩
  · rintro s ⟨hs, hts⟩
    rcases sub_iff.mp hts with rfl | ⟨p, hp, htp⟩
    · exact Or.inl rfl
    · exact Or.inr ⟨p, ⟨hA.parent_mem hs hp, htp⟩, hp⟩
  · rintro s i ⟨hs, hts⟩ hi
    obtain ⟨c, ⟨hc, hcp, hci⟩, huniq⟩ := hA.region hs hi
    refine ⟨c, ⟨⟨hc, hts.tail hcp⟩, hcp, hci⟩, ?_⟩
    rintro d ⟨⟨hd, -⟩, hdp, hdi⟩
    exact huniq d ⟨hd, hdp, hdi⟩

/-! ## Cutting and grafting -/

/--
**Replacing a subtree keeps a configuration legal.**

The subtree at the active `t` is cut and a complete subtree at `u` is grafted in. `u` lies in
the region that held `t`, so that region has one active state again, and no other region is
touched.
-/
theorem Legal.replace (hA : H.Legal A) (ht : t ∈ A) (hB : H.Complete u B)
    (hp : H.parent u = H.parent t) (hs : H.slot u = H.slot t) :
    H.Legal {x | (x ∈ A ∧ ¬ H.Sub t x) ∨ x ∈ B} := by
  -- a state of the kept part is never below `u`: it would be below `t` too
  have hapart : ∀ {x}, x ∈ A → H.Sub u x → H.Sub t x := by
    intro x hx hux
    have huA : u ∈ A := hA.anc_mem hx hux
    rcases H.parent_declared (hA.declared ht) with rfl | ⟨p, htp, -, hlt⟩
    · rw [H.parent_root] at hp
      rcases H.parent_declared (hB.declared hB.top_mem) with rfl | ⟨q, hq, -, -⟩
      · exact hux
      · rw [hp] at hq; cases hq
    · rw [htp] at hp
      have hu : H.ChildAt A p (H.slot t) u := ⟨huA, hp, hs⟩
      have ht' : H.ChildAt A p (H.slot t) t := ⟨ht, htp, rfl⟩
      rwa [(hA.region (hA.parent_mem ht htp) hlt).unique hu ht'] at hux
  refine ⟨?_, ?_, ?_, ?_⟩
  · rintro s (⟨h, -⟩ | h)
    · exact hA.declared h
    · exact hB.declared h
  · by_cases htr : t = H.root
    · rw [htr, H.parent_root] at hp
      rcases H.parent_declared (hB.declared hB.top_mem) with hu | ⟨q, hq, -, -⟩
      · exact Or.inr (hu ▸ hB.top_mem)
      · rw [hp] at hq; cases hq
    · exact Or.inl ⟨hA.root_mem, fun h => htr (sub_root_iff.mp h)⟩
  · rintro s p (⟨h, hn⟩ | h) hsp
    · exact Or.inl ⟨hA.parent_mem h hsp, fun h' => hn (h'.tail hsp)⟩
    · rcases hB.parent_mem h with rfl | ⟨q, hq, hsq⟩
      · rw [hp] at hsp
        exact Or.inl ⟨hA.parent_mem ht hsp, not_sub_parent (hA.declared ht) hsp⟩
      · rw [hsp] at hsq; cases hsq; exact Or.inr hq
  · rintro s i (⟨h, hn⟩ | h) hi
    · obtain ⟨c, ⟨hc, hcp, hci⟩, huniq⟩ := hA.region h hi
      by_cases htc : H.Sub t c
      · -- the region that held `t`: the graft takes its place
        rcases sub_iff.mp htc with rfl | ⟨q, hq, htq⟩
        · refine ⟨u, ⟨Or.inr hB.top_mem, hp ▸ hcp, hs ▸ hci⟩, ?_⟩
          rintro d ⟨⟨hd, hdn⟩ | hd, hdp, hdi⟩
          · exact absurd (huniq d ⟨hd, hdp, hdi⟩ ▸ Sub.refl) hdn
          · rcases hB.parent_mem hd with rfl | ⟨q, hq, hdq⟩
            · rfl
            · rw [hdp] at hdq; cases hdq
              exact absurd (hapart h (hB.sub hq)) hn
        · rw [hcp] at hq; cases hq; exact absurd htq hn
      · refine ⟨c, ⟨Or.inl ⟨hc, htc⟩, hcp, hci⟩, ?_⟩
        rintro d ⟨⟨hd, hdn⟩ | hd, hdp, hdi⟩
        · exact huniq d ⟨hd, hdp, hdi⟩
        · rcases hB.parent_mem hd with rfl | ⟨q, hq, hdq⟩
          · have htc' := huniq t ⟨ht, hp ▸ hdp, hs ▸ hdi⟩
            exact absurd (htc' ▸ Sub.refl) htc
          · rw [hdp] at hdq; cases hdq
            exact absurd (hapart h (hB.sub hq)) hn
    · obtain ⟨c, ⟨hc, hcp, hci⟩, huniq⟩ := hB.region h hi
      refine ⟨c, ⟨Or.inr hc, hcp, hci⟩, ?_⟩
      rintro d ⟨⟨hd, hdn⟩ | hd, hdp, hdi⟩
      · have hsA : s ∈ A := hA.parent_mem hd hdp
        exact absurd ((hapart hsA (hB.sub h)).tail hdp) hdn
      · exact huniq d ⟨hd, hdp, hdi⟩

/-! ## One state and its regions -/

/-- A state and a complete configuration of one child in each of its regions. -/
theorem Complete.node {c : Nat → σ} {C : Nat → Set σ} (hs : H.declared s)
    (hc : ∀ i < H.regions s, H.parent (c i) = some s ∧ H.slot (c i) = i ∧
      H.Complete (c i) (C i)) :
    H.Complete s {x | x = s ∨ ∃ i < H.regions s, x ∈ C i} := by
  have hns : ∀ i < H.regions s, s ∉ C i := by
    intro i hi hm
    obtain ⟨hp, -, hC⟩ := hc i hi
    exact not_sub_parent (hC.declared hC.top_mem) hp (hC.sub hm)
  refine ⟨?_, Or.inl rfl, ?_, ?_⟩
  · rintro x (rfl | ⟨i, hi, hx⟩)
    · exact hs
    · exact (hc i hi).2.2.declared hx
  · rintro x (rfl | ⟨i, hi, hx⟩)
    · exact Or.inl rfl
    · obtain ⟨hp, -, hC⟩ := hc i hi
      rcases hC.parent_mem hx with rfl | ⟨p, hpm, hxp⟩
      · exact Or.inr ⟨s, Or.inl rfl, hp⟩
      · exact Or.inr ⟨p, Or.inr ⟨i, hi, hpm⟩, hxp⟩
  · rintro x j (rfl | ⟨i, hi, hx⟩) hj
    · obtain ⟨hp, hsl, hC⟩ := hc j hj
      refine ⟨c j, ⟨Or.inr ⟨j, hj, hC.top_mem⟩, hp, hsl⟩, ?_⟩
      rintro d ⟨rfl | ⟨k, hk, hd⟩, hdp, hdi⟩
      · exact absurd Sub.refl (not_sub_parent hs hdp)
      · obtain ⟨hpk, hslk, hCk⟩ := hc k hk
        rcases hCk.parent_mem hd with rfl | ⟨q, hq, hdq⟩
        · rw [← hdi, hslk]
        · rw [hdp] at hdq; cases hdq; exact absurd hq (hns k hk)
    · obtain ⟨hp, hsl, hC⟩ := hc i hi
      obtain ⟨d, ⟨hd, hdp, hdi⟩, huniq⟩ := hC.region hx hj
      refine ⟨d, ⟨Or.inr ⟨i, hi, hd⟩, hdp, hdi⟩, ?_⟩
      rintro e ⟨rfl | ⟨k, hk, he⟩, hep, hei⟩
      · exact absurd ((Sub.of_parent hp).trans (hC.sub hx)) (not_sub_parent hs hep)
      · refine huniq e ⟨?_, hep, hei⟩
        obtain ⟨hpk, hslk, hCk⟩ := hc k hk
        rcases hCk.parent_mem he with rfl | ⟨q, hq, heq⟩
        · rw [hpk] at hep; cases hep; exact absurd hx (hns i hi)
        · rw [hep] at heq; cases heq
          -- `x` lies below both children, so they are one
          have hci := hC.sub hx
          have hck := hCk.sub hq
          have hik : i = k := by
            rcases hci.total hck with h | h
            · rcases sub_iff.mp h with h' | ⟨r, hr, hcr⟩
              · rw [← hsl, ← hslk, h']
              · rw [hpk] at hr; cases hr
                exact absurd hcr (not_sub_parent (hC.declared hC.top_mem) hp)
            · rcases sub_iff.mp h with h' | ⟨r, hr, hcr⟩
              · rw [← hsl, ← hslk, h']
              · rw [hp] at hr; cases hr
                exact absurd hcr (not_sub_parent (hCk.declared hCk.top_mem) hpk)
          rw [hik]; exact he

/-- The part of a complete configuration at one of its members is complete there. -/
theorem Complete.child (hB : H.Complete t B) (hs : s ∈ B) :
    H.Complete s {x | x ∈ B ∧ H.Sub s x} := by
  refine ⟨fun h => hB.declared h.1, ⟨hs, Sub.refl⟩, ?_, ?_⟩
  · rintro x ⟨hx, hsx⟩
    rcases sub_iff.mp hsx with rfl | ⟨p, hp, hsp⟩
    · exact Or.inl rfl
    · exact Or.inr ⟨p, ⟨hB.anc_mem hx (Sub.of_parent hp) ((hB.sub hs).trans hsp), hsp⟩, hp⟩
  · rintro x i ⟨hx, hsx⟩ hi
    obtain ⟨c, ⟨hc, hcp, hci⟩, huniq⟩ := hB.region hx hi
    refine ⟨c, ⟨⟨hc, hsx.tail hcp⟩, hcp, hci⟩, ?_⟩
    rintro d ⟨⟨hd, -⟩, hdp, hdi⟩
    exact huniq d ⟨hd, hdp, hdi⟩

/-- A member of a complete configuration is its top or lies at or below the top's child in one
region. -/
theorem Complete.cases {x : σ} (hB : H.Complete t B) (hx : x ∈ B) :
    x = t ∨ ∃ i < H.regions t, ∃ c, H.ChildAt B t i c ∧ H.Sub c x := by
  rcases hB.parent_mem hx with rfl | ⟨p, hp, hxp⟩
  · exact Or.inl rfl
  · have hd := H.depth_parent (hB.declared hx) hxp
    rcases hB.cases hp with rfl | ⟨i, hi, c, hc, hcp⟩
    · have hlt := (parent_declared_of (hB.declared hx) hxp).2
      exact Or.inr ⟨_, hlt, x, ⟨hx, hxp, rfl⟩, Sub.refl⟩
    · exact Or.inr ⟨i, hi, c, hc, hcp.tail hxp⟩
termination_by H.depth x

/-- Below every member of a complete configuration there is a member without regions, when
depths are bounded. -/
theorem Complete.exists_leaf {x : σ} {n : Nat} (hn : ∀ s, H.declared s → H.depth s ≤ n)
    (hB : H.Complete t B) (hx : x ∈ B) : ∃ l ∈ B, H.Sub x l ∧ H.regions l = 0 := by
  by_cases h0 : H.regions x = 0
  · exact ⟨x, hx, Sub.refl, h0⟩
  · obtain ⟨c, ⟨hc, hcp, -⟩, -⟩ := hB.region hx (Nat.pos_of_ne_zero h0)
    have hd := H.depth_parent (hB.declared hc) hcp
    have hle := hn c (hB.declared hc)
    obtain ⟨l, hl, hcl, hl0⟩ := hB.exists_leaf hn hc
    exact ⟨l, hl, (Sub.of_parent hcp).trans hcl, hl0⟩
termination_by n - H.depth x

end Hierarchy

end Dsl41.Infra
