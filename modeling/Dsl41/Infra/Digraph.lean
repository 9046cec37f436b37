import Mathlib.Data.List.Sort
import Mathlib.Data.Finset.Sort
import Mathlib.Data.Fintype.Card
import Mathlib.Data.List.Chain
import Mathlib.Logic.Relation

/-!
# Components of a directed graph

Two nodes are mutual when each reaches the other. `mutual_iff_mem` is how a search knows one
component: a set of nodes mutual with `v` whose other edges end in a closed set without `v` is the
whole component of `v`.
-/

namespace Dsl41.Infra

variable {ν : Type} {r : ν → ν → Prop} {a b c v w : ν}

abbrev Reaches (r : ν → ν → Prop) : ν → ν → Prop := Relation.ReflTransGen r

/-- Each of the two reaches the other. -/
def Mutual (r : ν → ν → Prop) (a b : ν) : Prop := Reaches r a b ∧ Reaches r b a

theorem Mutual.refl : Mutual r a a := ⟨.refl, .refl⟩

theorem Mutual.symm (h : Mutual r a b) : Mutual r b a := ⟨h.2, h.1⟩

theorem Mutual.trans (h : Mutual r a b) (h' : Mutual r b c) : Mutual r a c :=
  ⟨h.1.trans h'.1, h'.2.trans h.2⟩

/-- A set that no edge leaves holds what its members reach. -/
theorem mem_of_reaches {P : ν → Prop} (hclosed : ∀ a, P a → ∀ b, r a b → P b) (h : Reaches r a b) (ha : P a) :
    P b := by
  induction h with
  | refl => exact ha
  | tail _ hedge ih => exact hclosed _ ih _ hedge

/-- A set of nodes mutual with `v` whose other edges end in a closed set without `v`. -/
theorem mutual_iff_mem {S D : ν → Prop} (hmutual : ∀ u, S u → Mutual r v u) (hv : S v)
    (hedges : ∀ u, S u → ∀ w, r u w → S w ∨ D w) (hclosed : ∀ a, D a → ∀ b, r a b → D b) (hout : ¬D v) :
    Mutual r v w ↔ S w := by
  refine ⟨fun h => ?_, hmutual w⟩
  have hpast : S w ∨ D w := mem_of_reaches (P := fun u => S u ∨ D u) (fun a ha b hab => by
    rcases ha with ha | ha
    · exact hedges a ha b hab
    · exact .inr (hclosed a ha b hab)) h.1 (.inl hv)
  exact hpast.resolve_right fun hw => hout (mem_of_reaches hclosed h.2 hw)

/-- A number that falls along a path until it is the least leads every node to the least one. -/
theorem reaches_least {P : ν → Prop} {f : ν → Nat}
    (hstep : ∀ u, P u → u ≠ v → ∃ w, P w ∧ f w < f u ∧ Reaches r u w) : ∀ u, P u → Reaches r u v := by
  intro u
  induction hn : f u using Nat.strong_induction_on generalizing u with
  | _ n ih =>
    intro hu
    by_cases heq : u = v
    · rw [heq]
    · obtain ⟨w, hw, hlt, hreach⟩ := hstep u hu heq
      exact hreach.trans (ih (f w) (hn ▸ hlt) w rfl hw)

/-- Where no path comes back, a path backwards comes to a node without an edge into it. -/
theorem exists_source {S : Finset ν} (hacyclic : ∀ a ∈ S, ¬Relation.TransGen r a a)
    (hback : ∀ a b, r a b → b ∈ S → a ∈ S) (hb : b ∈ S) : ∃ a ∈ S, Reaches r a b ∧ ∀ c, ¬r c a := by
  let before (x y : S) : Prop := Relation.TransGen r x.1 y.1
  have : IsTrans S before := ⟨fun _ _ _ => Relation.TransGen.trans⟩
  have : Std.Irrefl before := ⟨fun x => hacyclic x.1 x.2⟩
  have hwf : WellFounded before := Finite.wellFounded_of_trans_of_irrefl before
  have hsource : ∀ y : S, ∃ a ∈ S, Reaches r a y.1 ∧ ∀ c, ¬r c a := by
    intro y
    induction y using hwf.induction with
    | _ y ih =>
      by_cases hnone : ∀ c, ¬r c y.1
      · exact ⟨y.1, y.2, .refl, hnone⟩
      · obtain ⟨c, hc⟩ := not_forall_not.mp hnone
        obtain ⟨a, ha, hreach, hsource⟩ := ih ⟨c, hback c y.1 hc y.2⟩ (.single hc)
        exact ⟨a, ha, hreach.tail hc, hsource⟩
  exact hsource ⟨b, hb⟩

/-- A list of edges passes no node twice where no path comes back. -/
theorem nodup_of_isChain {l : List ν} (h : l.IsChain r) (hacyclic : ∀ a ∈ l, ¬Relation.TransGen r a a) : l.Nodup := by
  have hpaths : l.Pairwise (Relation.TransGen r) := (h.imp fun _ _ => Relation.TransGen.single).pairwise
  refine hpaths.imp_of_mem fun {a b} ha _ hpath heq => hacyclic a ha ?_
  rwa [← heq] at hpath

/-- In a list of edges a node is the first one or has an edge into it from the list. -/
theorem head_or_edge {l : List ν} (h : l.IsChain r) (hv : v ∈ l) : l.head? = some v ∨ ∃ u ∈ l, r u v := by
  obtain ⟨before, after, rfl⟩ := List.append_of_mem hv
  rcases List.eq_nil_or_concat before with rfl | ⟨front, u, rfl⟩
  · exact .inl rfl
  · refine .inr ⟨u, by simp, ?_⟩
    rw [List.concat_eq_append, List.append_assoc] at h
    exact (List.isChain_append_cons_cons.mp h).2.1

/-- In a list of edges a node is the last one or the next one has an edge from it. -/
theorem last_or_edge {l : List ν} (h : l.IsChain r) (hv : v ∈ l) :
    l.getLast? = some v ∨ ∃ w, r v w ∧ [v, w] <:+: l := by
  obtain ⟨before, after, rfl⟩ := List.append_of_mem hv
  cases after with
  | nil => exact .inl (by simp)
  | cons w after =>
    exact .inr ⟨w, (List.isChain_append_cons_cons.mp h).2.1, before, after, by simp⟩

section Sorted

variable [LinearOrder ν]

/-- `sorted`, of a list. -/
def sortedList (l : List ν) : List ν := l.insertionSort (· ≤ ·)

theorem sortedList_perm {l : List ν} : (sortedList l).Perm l := List.perm_insertionSort _ l

@[simp] theorem mem_sortedList {l : List ν} : a ∈ sortedList l ↔ a ∈ l := List.mem_insertionSort _

theorem sortedList_pairwise {l : List ν} : (sortedList l).Pairwise (· ≤ ·) := List.pairwise_insertionSort _ l

theorem sortedList_sortedLT {l : List ν} (h : l.Nodup) : (sortedList l).SortedLT :=
  (List.sortedLE_iff_pairwise.mpr sortedList_pairwise).sortedLT_of_nodup (sortedList_perm.nodup_iff.mpr h)

theorem sortedList_congr {l l' : List ν} (h : l.Perm l') : sortedList l = sortedList l' :=
  (sortedList_perm.trans (h.trans sortedList_perm.symm)).eq_of_sortedLE
    (List.sortedLE_iff_pairwise.mpr sortedList_pairwise) (List.sortedLE_iff_pairwise.mpr sortedList_pairwise)

/-- `sorted`, of a set. -/
def sorted (s : Finset ν) : List ν :=
  Quot.liftOn s.val sortedList fun _ _ h => sortedList_congr h

theorem sorted_val (s : Finset ν) : (sorted s : Multiset ν) = s.val := by
  obtain ⟨m, hm⟩ := s
  induction m using Quot.ind with
  | mk l => exact Multiset.coe_eq_coe.mpr sortedList_perm

@[simp] theorem mem_sorted {s : Finset ν} : a ∈ sorted s ↔ a ∈ s := by
  rw [← Finset.mem_val, ← sorted_val, Multiset.mem_coe]

@[simp] theorem length_sorted {s : Finset ν} : (sorted s).length = s.card := by
  rw [Finset.card, ← sorted_val, Multiset.coe_card]

end Sorted

end Dsl41.Infra
