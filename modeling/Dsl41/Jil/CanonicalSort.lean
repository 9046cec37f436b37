import Dsl41.Jil.CanonicalStatement

/-!
# The canonical order

The sort of the attributes is an order of their keys, so the attributes of one key stay in source
order and a sorted list stays as it is.
-/

namespace Dsl41.Jil

variable {a b c : RawAttr} {attrs attrs' : List RawAttr}

/-! ## Sorts -/

section Stable

variable {α : Type*} {r : α → α → Prop} [DecidableRel r] {p : α → Bool}

theorem filter_orderedInsert (hr : ∀ a b, p a = true → p b = true → r a b) (a : α) (l : List α) :
    (l.orderedInsert r a).filter p = (a :: l).filter p := by
  induction l with
  | nil => rfl
  | cons b l ih =>
    by_cases hab : r a b
    · rw [List.orderedInsert_cons_of_le r l hab]
    · rw [List.orderedInsert_of_not_le r l hab]
      -- one of the two is left out, so they need not be exchanged
      cases ha : p a with
      | false =>
        rw [List.filter_cons_of_neg (by simp [ha])] at ih
        rw [List.filter_cons, ih, List.filter_cons_of_neg (by simp [ha]), List.filter_cons]
      | true =>
        have hb : p b = false := by
          by_contra hb
          exact hab (hr a b ha (by simpa using hb))
        rw [List.filter_cons_of_neg (by simp [hb]), ih, List.filter_cons_of_pos ha,
          List.filter_cons_of_pos ha, List.filter_cons_of_neg (by simp [hb])]

/-- A sort does not exchange elements that are in order with each other. -/
theorem filter_insertionSort (hr : ∀ a b, p a = true → p b = true → r a b) (l : List α) :
    (l.insertionSort r).filter p = l.filter p := by
  induction l with
  | nil => rfl
  | cons a l ih =>
    rw [List.insertionSort_cons, filter_orderedInsert hr, List.filter_cons, ih, List.filter_cons]

end Stable

/-! ## The order of the keys -/

theorem sortLe_iff : sortLe a b = true ↔ (sortKey a).1 < (sortKey b).1 ∨
    (sortKey a).1 = (sortKey b).1 ∧ (sortKey a).2 ≤ (sortKey b).2 := by
  simp [sortLe]

theorem sortLe_total : sortLe a b = true ∨ sortLe b a = true := by
  rw [sortLe_iff, sortLe_iff]
  rcases Nat.lt_trichotomy (sortKey a).1 (sortKey b).1 with h | h | h
  · exact .inl (.inl h)
  · rcases le_total (sortKey a).2 (sortKey b).2 with hle | hle
    · exact .inl (.inr ⟨h, hle⟩)
    · exact .inr (.inr ⟨h.symm, hle⟩)
  · exact .inr (.inl h)

theorem sortLe_trans (hab : sortLe a b = true) (hbc : sortLe b c = true) : sortLe a c = true := by
  rw [sortLe_iff] at *
  rcases hab with hab | ⟨hab, hab'⟩
  · rcases hbc with hbc | ⟨hbc, -⟩
    · exact .inl (hab.trans hbc)
    · exact .inl (hbc ▸ hab)
  · rcases hbc with hbc | ⟨hbc, hbc'⟩
    · exact .inl (hab ▸ hbc)
    · exact .inr ⟨hab.trans hbc, le_trans hab' hbc'⟩

theorem sortLe_of_lower_eq (h : lower a.key = lower b.key) : sortLe a b = true := by
  rw [sortLe_iff, sortKey, h, sortKey]
  exact .inr ⟨rfl, le_refl _⟩

theorem sortLe_congr {a' b' : RawAttr} (ha : a'.key = a.key) (hb : b'.key = b.key) :
    sortLe a' b' = sortLe a b := by
  rw [sortLe, sortLe, sortKey, sortKey, sortKey, sortKey, ha, hb]

instance : Std.Total (sortLe · · : RawAttr → RawAttr → Prop) := ⟨fun _ _ => sortLe_total⟩

instance : IsTrans RawAttr (sortLe · ·) := ⟨fun _ _ _ => sortLe_trans⟩

theorem canonicalSort_perm : (canonicalSort attrs).Perm attrs :=
  List.perm_insertionSort _ _

theorem canonicalSort_pairwise : (canonicalSort attrs).Pairwise (sortLe · ·) :=
  List.pairwise_insertionSort _ _

/-- The attributes of one key stay in source order. -/
theorem canonicalSort_filter (key : Line) :
    (canonicalSort attrs).filter (fun a => lower a.key = key) =
      attrs.filter fun a => lower a.key = key := by
  refine filter_insertionSort (fun a b ha hb => ?_) attrs
  rw [decide_eq_true_eq] at ha hb
  exact sortLe_of_lower_eq (ha.trans hb.symm)

theorem exists_of_mem_right {α β : Type*} {R : α → β → Prop} {l : List α} {l' : List β} {b : β}
    (h : List.Forall₂ R l l') (hb : b ∈ l') : ∃ a ∈ l, R a b := by
  induction h with
  | nil => cases hb
  | @cons a b' l l' hab _ ih =>
    rcases List.mem_cons.mp hb with rfl | hb
    · exact ⟨a, List.mem_cons_self, hab⟩
    · obtain ⟨a', ha', hab'⟩ := ih hb
      exact ⟨a', List.mem_cons_of_mem _ ha', hab'⟩

/-- Sorting a list whose keys are in order already changes nothing. -/
theorem canonicalSort_of_keys (h : List.Forall₂ (fun a g => g.key = a.key) attrs attrs')
    (hattrs : attrs.Pairwise (sortLe · ·)) : canonicalSort attrs' = attrs' := by
  refine List.Pairwise.insertionSort_eq ?_
  induction h with
  | nil => exact .nil
  | @cons a g attrs attrs' hkey hall ih =>
    obtain ⟨hle, hpair⟩ := List.pairwise_cons.mp hattrs
    refine .cons (fun g' hg' => ?_) (ih hpair)
    obtain ⟨a', ha', hkey'⟩ := exists_of_mem_right hall hg'
    rw [sortLe_congr hkey hkey']
    exact hle a' ha'

end Dsl41.Jil
