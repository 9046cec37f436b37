import Mathlib.Data.Finset.Card
import Mathlib.Data.Finset.Max
import Dsl41.Runner.StoresAgree
import Dsl41.Watch.Moments

/-!
# What the stores retain

`Retained` compares what a store holds with all that was ever written to it: the rows are the end of
the whole journal, from the latest snapshot on nothing is missing, and the two newest snapshots are
there. Each write keeps it, whatever the order of the stamps; both stores are read as such holdings.
-/

namespace Dsl41.Runner

open Infra Infra.Json Canon

/-! ## Rows under consecutive seqs -/

/-- Rows under the seqs from a first one on. -/
def rowsFrom (first : Int) : List Encoded → List MemRow
  | [] => []
  | row :: rows => (first, row) :: rowsFrom (first + 1) rows

section Rows

variable {first : Int} {r : MemRow}

theorem le_of_mem_rowsFrom {rows : List Encoded} (h : r ∈ rowsFrom first rows) :
    first ≤ r.1 ∧ r.1 < first + rows.length := by
  induction rows generalizing first with
  | nil => cases h
  | cons row rows ih =>
    rw [List.length_cons]
    push_cast
    rcases List.mem_cons.mp h with rfl | hrest
    · omega
    · have hbounds := ih hrest
      omega

theorem ordered_rowsFrom (rows : List Encoded) : Ordered (rowsFrom first rows) := by
  induction rows generalizing first with
  | nil => exact List.Pairwise.nil
  | cons row rows ih =>
    refine List.pairwise_cons.mpr ⟨fun r hr => ?_, ih⟩
    have hbounds := le_of_mem_rowsFrom hr
    show first < r.1
    omega

/-- A row's seq is its place. -/
theorem seq_of_rowsFrom {rows : List Encoded} {before after : List MemRow}
    (h : rowsFrom first rows = before ++ r :: after) : r.1 = first + before.length := by
  induction rows generalizing first before with
  | nil => exact absurd h.symm (List.append_ne_nil_of_right_ne_nil _ (List.cons_ne_nil _ _))
  | cons row rows ih =>
    cases before with
    | nil =>
      cases h
      simp
    | cons b before =>
      obtain ⟨-, h⟩ := List.cons.inj h
      rw [ih h, List.length_cons]
      push_cast
      omega

/-- Rows that are numbered by their place are numbered from one on. -/
theorem eq_rowsFrom (first : Int) {rows : List MemRow}
    (h : ∀ (i : Nat) (r : MemRow), rows[i]? = some r → r.1 = first + i) : rows = rowsFrom first (rows.map Prod.snd) := by
  induction rows generalizing first with
  | nil => rfl
  | cons r rows ih =>
    have hhead : r.1 = first := by
      have hzero := h 0 r rfl
      rwa [Int.natCast_zero, Int.add_zero] at hzero
    have hrest := ih (first + 1) fun i r' hr' => by
      rw [h (i + 1) r' hr']
      push_cast
      omega
    rw [List.map_cons, rowsFrom, ← hrest, ← hhead]

end Rows

/-! ## Holdings -/

/-- All that was ever written: the rows, and the seqs of the snapshots. -/
structure Past where
  rows : List MemRow := []
  snaps : Finset Int := ∅

/-- The greatest of the seqs. -/
def Latest (snaps : Finset Int) (k : Int) : Prop := k ∈ snaps ∧ ∀ k' ∈ snaps, k' ≤ k

/-- No two greater ones. -/
def Newest (snaps : Finset Int) (k : Int) : Prop := k ∈ snaps ∧ (snaps.filter (k < ·)).card ≤ 1

/-- What a store holds, against all that was written to it. -/
structure Retained (past : Past) (rows : List MemRow) (last : Int) (snaps : Finset Int) : Prop where
  numbered : ∀ (i : Nat) (r : MemRow), past.rows[i]? = some r → r.1 = i + 1
  counted : last = past.rows.length
  encoded : ∀ r ∈ past.rows, ∃ here, encode here = .ok r.2
  suffix : rows <:+ past.rows
  whole : snaps = ∅ → rows = past.rows
  covered : ∀ k, Latest snaps k → ∀ r ∈ past.rows, k ≤ r.1 → r ∈ rows
  below : ∀ k ∈ snaps, k ≤ last
  stored : snaps ⊆ past.snaps
  newest : ∀ k, Newest past.snaps k → k ∈ snaps
  unique : ∀ r ∈ rows, ∀ r' ∈ rows, ∀ id, r.2.request_id = some id → r'.2.request_id = some id → r = r'

variable {past : Past} {rows : List MemRow} {last k : Int} {snaps snaps' : Finset Int} {row : Encoded}

theorem exists_latest (h : snaps.Nonempty) : ∃ k, Latest snaps k :=
  ⟨snaps.max' h, snaps.max'_mem h, fun _ hk => snaps.le_max' _ hk⟩

theorem Latest.newest (h : Latest snaps k) : Newest snaps k := by
  refine ⟨h.1, ?_⟩
  rw [Finset.filter_eq_empty_iff.mpr fun k' hk' => not_lt_of_ge (h.2 k' hk'), Finset.card_empty]
  exact Nat.zero_le 1

theorem Newest.subset (h : Newest snaps' k) (hsub : snaps ⊆ snaps') (hk : k ∈ snaps) : Newest snaps k :=
  ⟨hk, (Finset.card_le_card (Finset.filter_subset_filter _ hsub)).trans h.2⟩

theorem retained_empty : Retained {} [] 0 ∅ where
  numbered := nofun
  counted := rfl
  encoded := nofun
  suffix := List.suffix_rfl
  whole := fun _ => rfl
  covered := fun _ _ _ hr => nomatch hr
  below := fun _ hk => absurd hk (Finset.notMem_empty _)
  stored := Finset.Subset.refl _
  newest := fun _ hk => hk.1
  unique := nofun

theorem Retained.ordered_past (h : Retained past rows last snaps) : Ordered past.rows := by
  refine List.pairwise_iff_getElem.mpr fun i j hi hj hlt => ?_
  rw [h.numbered i _ (List.getElem?_eq_getElem hi), h.numbered j _ (List.getElem?_eq_getElem hj)]
  omega

theorem Retained.ordered (h : Retained past rows last snaps) : Ordered rows := h.ordered_past.sublist h.suffix.sublist

/-! ## Writes -/

/-- One row more, under an id that no row holds. -/
theorem Retained.push (h : Retained past rows last snaps) (hencoded : ∃ here, encode here = .ok row)
    (hfree : ∀ id ∈ row.request_id, ∀ r ∈ rows, r.2.request_id ≠ some id) :
    Retained { past with rows := past.rows ++ [(last + 1, row)] } (rows ++ [(last + 1, row)]) (last + 1) snaps where
  numbered := fun i r hr => by
    rcases lt_or_ge i past.rows.length with hi | hi
    · rw [List.getElem?_append_left hi] at hr
      exact h.numbered i r hr
    · rw [List.getElem?_append_right hi] at hr
      obtain ⟨hi', heq⟩ := List.getElem?_eq_some_iff.mp hr
      rw [List.length_singleton] at hi'
      have hpos : i = past.rows.length := by omega
      subst hpos
      have hlast := h.counted
      simp only [Nat.sub_self, List.getElem_cons_zero] at heq
      rw [← heq, hlast]
  counted := by
    rw [List.length_append, List.length_singleton, h.counted]
    push_cast
    omega
  encoded := fun r hr => by
    rcases List.mem_append.mp hr with hr | hr
    · exact h.encoded r hr
    · rw [List.mem_singleton.mp hr]
      exact hencoded
  suffix := by
    obtain ⟨front, hfront⟩ := h.suffix
    exact ⟨front, by rw [← List.append_assoc, hfront]⟩
  whole := fun hnone => by rw [h.whole hnone]
  covered := fun k hk r hr hle => by
    rcases List.mem_append.mp hr with hr | hr
    · exact List.mem_append_left _ (h.covered k hk r hr hle)
    · exact List.mem_append_right _ hr
  below := fun k hk => (h.below k hk).trans (by omega)
  stored := h.stored
  newest := h.newest
  unique := fun r hr r' hr' id hid hid' => by
    rcases List.mem_append.mp hr with hr | hr <;> rcases List.mem_append.mp hr' with hr' | hr'
    · exact h.unique r hr r' hr' id hid hid'
    · rw [List.mem_singleton.mp hr'] at hid'
      exact absurd hid (hfree id hid' r hr)
    · rw [List.mem_singleton.mp hr] at hid
      exact absurd hid' (hfree id hid r' hr')
    · rw [List.mem_singleton.mp hr, List.mem_singleton.mp hr']

/-- A snapshot more, at or below the last seq. -/
theorem Retained.store (h : Retained past rows last snaps) (hle : k ≤ last) :
    Retained { past with snaps := insert k past.snaps } rows last (insert k snaps) :=
  { h with
    whole := fun hnone => absurd hnone (Finset.insert_ne_empty _ _)
    covered := fun m hm r hr hmr => by
      rcases snaps.eq_empty_or_nonempty with hnone | hsome
      · rw [h.whole hnone]
        exact hr
      · obtain ⟨old, hold⟩ := exists_latest hsome
        exact h.covered old hold r hr ((hm.2 old (Finset.mem_insert_of_mem hold.1)).trans hmr)
    below := fun m hm => by
      rcases Finset.mem_insert.mp hm with rfl | hm
      · exact hle
      · exact h.below m hm
    stored := Finset.insert_subset_insert _ h.stored
    newest := fun m hm => by
      rcases Finset.mem_insert.mp hm.1 with rfl | hmem
      · exact Finset.mem_insert_self _ _
      · exact Finset.mem_insert_of_mem (h.newest m (hm.subset (Finset.subset_insert _ _) hmem)) }

/-- Snapshots are deleted, but not the two newest. -/
theorem Retained.retain (h : Retained past rows last snaps) (hsub : snaps' ⊆ snaps)
    (hnewest : ∀ k, Newest snaps k → k ∈ snaps') : Retained past rows last snaps' :=
  { h with
    whole := fun hnone => h.whole (by
      by_contra hne
      obtain ⟨k, hk⟩ := exists_latest (Finset.nonempty_iff_ne_empty.mpr hne)
      have hmem := hnewest k hk.newest
      rw [hnone] at hmem
      exact Finset.notMem_empty _ hmem)
    covered := fun k hk r hr hle => by
      obtain ⟨m, hm⟩ := exists_latest ⟨k, hsub hk.1⟩
      exact h.covered m hm r hr ((hk.2 m (hnewest m hm.newest)).trans hle)
    below := fun k hk => h.below k (hsub hk)
    stored := hsub.trans h.stored
    newest := fun k hk => hnewest k (hk.subset h.stored (h.newest k hk)) }

/-- Rows are deleted below a bound that is not above the latest snapshot. -/
theorem Retained.prune {latest bound : Int} (h : Retained past rows last snaps) (hlatest : Latest snaps latest)
    (hbound : bound ≤ latest) : Retained past (rows.filter fun r => decide (bound ≤ r.1)) last snaps :=
  { h with
    suffix := by
      have hsplit := h.ordered.split (bound - 1)
      have hafter : rowsAfter (bound - 1) rows = rows.filter fun r => decide (bound ≤ r.1) :=
        List.filter_congr fun r _ => decide_eq_decide.mpr (by omega)
      rw [hafter] at hsplit
      exact (List.suffix_append _ _).trans (hsplit ▸ h.suffix)
    whole := fun hnone => absurd (hnone ▸ hlatest.1) (Finset.notMem_empty _)
    covered := fun k hk r hr hle => by
      have hmem := h.covered k hk r hr hle
      have hk' : latest ≤ k := hk.2 latest hlatest.1
      exact List.mem_filter.mpr ⟨hmem, by simp only [decide_eq_true_eq]; omega⟩
    unique := fun r hr r' hr' => h.unique r (List.mem_of_mem_filter hr) r' (List.mem_of_mem_filter hr') }

/-! ## What a holding has -/

/-- The retained seqs are one unbroken range that ends at the last one. -/
theorem Retained.range (h : Retained past rows last snaps) : past.rows = [] ∨
    ∃ first, first ≤ last ∧ ∀ q, q ∈ rows.map Prod.fst ↔ first ≤ q ∧ q ≤ last := by
  rcases List.eq_nil_or_concat past.rows with hnil | ⟨front, newest, heq⟩
  · exact .inl hnil
  · rw [List.concat_eq_append] at heq
    have hlast : newest.1 = last := by
      have hget : past.rows[front.length]? = some newest := by rw [heq]; simp
      rw [h.numbered _ _ hget, h.counted, heq, List.length_append, List.length_singleton]
      push_cast
      omega
    have hin : newest ∈ rows := by
      have hmem : newest ∈ past.rows := by rw [heq]; simp
      rcases snaps.eq_empty_or_nonempty with hnone | hsome
      · rw [h.whole hnone]
        exact hmem
      · obtain ⟨k, hk⟩ := exists_latest hsome
        exact h.covered k hk newest hmem (by rw [hlast]; exact h.below k hk.1)
    obtain ⟨gone, hgone⟩ := h.suffix
    have hpos : ∀ (i : Nat) (r : MemRow), rows[i]? = some r → r.1 = gone.length + i + 1 := by
      intro i r hr
      have hget : past.rows[gone.length + i]? = some r := by
        rw [← hgone, List.getElem?_append_right (Nat.le_add_right _ _), Nat.add_sub_cancel_left]
        exact hr
      rw [h.numbered _ _ hget]
      push_cast
      omega
    have hlen : last = gone.length + rows.length := by
      rw [h.counted, ← hgone, List.length_append]
      push_cast
      omega
    have hsome : 0 < rows.length := List.length_pos_of_mem hin
    refine .inr ⟨gone.length + 1, by omega, fun q => ?_⟩
    rw [List.mem_map]
    constructor
    · rintro ⟨r, hr, rfl⟩
      obtain ⟨i, hi, hget⟩ := List.mem_iff_getElem.mp hr
      have hr' := hpos i r (List.getElem?_eq_some_iff.mpr ⟨hi, hget⟩)
      omega
    · rintro ⟨hlow, hhigh⟩
      have hi : (q - (gone.length + 1)).toNat < rows.length := by omega
      refine ⟨rows[(q - (gone.length + 1)).toNat], List.getElem_mem hi, ?_⟩
      rw [hpos _ _ (List.getElem?_eq_getElem hi)]
      omega

end Dsl41.Runner
