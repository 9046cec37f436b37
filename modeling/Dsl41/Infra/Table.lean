import Mathlib.Data.List.Basic
import Mathlib.Data.List.DropRight
import Mathlib.Data.List.Forall2
import Mathlib.Order.Basic

/-!
# Tables kept by row number

Rows in the order of their numbers, each number once: what a table with an integer primary key
holds. A scan that reads the rows after a number in chunks, taking the last number read as the
next one to read after, reads every row after the first number, however long a chunk is.
-/

namespace Dsl41.Infra

variable {α β ε : Type}

/-- The row numbers grow. -/
def Ordered (rows : List (Int × α)) : Prop := rows.Pairwise fun r r' => r.1 < r'.1

/-- The rows after a number. -/
def rowsAfter (n : Int) (rows : List (Int × α)) : List (Int × α) :=
  rows.filter fun r => decide (n < r.1)

/-! ## Ordered rows -/

section Ordered

variable {n : Int} {a : α} {rows : List (Int × α)} {r : Int × α}

theorem Ordered.filter (h : Ordered rows) (p : Int × α → Bool) : Ordered (rows.filter p) :=
  List.Pairwise.filter p h

theorem Ordered.drop (h : Ordered rows) (k : Nat) : Ordered (rows.drop k) := List.Pairwise.drop h

theorem Ordered.push (h : Ordered rows) (hn : ∀ r ∈ rows, r.1 < n) : Ordered (rows ++ [(n, a)]) := by
  refine List.pairwise_append.mpr ⟨h, List.pairwise_singleton _ _, ?_⟩
  intro r hr r' hr'
  rw [List.mem_singleton.mp hr']
  exact hn r hr

/-- Each number is there once. -/
theorem Ordered.unique (h : Ordered rows) {b : α} (ha : (n, a) ∈ rows) (hb : (n, b) ∈ rows) :
    a = b := by
  induction rows with
  | nil => cases ha
  | cons r rows ih =>
    obtain ⟨hr, hrows⟩ := List.pairwise_cons.mp h
    rcases List.mem_cons.mp ha with ha | ha <;> rcases List.mem_cons.mp hb with hb | hb
    · exact (Prod.mk.inj (ha.trans hb.symm)).2
    · exact absurd (hr _ hb) (ha ▸ Int.lt_irrefl n)
    · exact absurd (hr _ ha) (hb ▸ Int.lt_irrefl n)
    · exact ih hrows ha hb

/-- In ordered rows the ones after a number are a suffix. -/
theorem Ordered.split (h : Ordered rows) (n : Int) :
    rows.filter (fun r => decide (r.1 ≤ n)) ++ rowsAfter n rows = rows := by
  induction rows with
  | nil => rfl
  | cons r rows ih =>
    obtain ⟨hr, hrows⟩ := List.pairwise_cons.mp h
    by_cases hn : r.1 ≤ n
    · rw [rowsAfter, List.filter_cons_of_pos (by simpa using hn),
        List.filter_cons_of_neg (by simpa using hn), List.cons_append]
      exact congrArg (r :: ·) (ih hrows)
    · have hnone : rows.filter (fun r => decide (r.1 ≤ n)) = [] := by
        refine List.filter_eq_nil_iff.mpr fun r' hr' => ?_
        have hlt : r.1 < r'.1 := hr r' hr'
        simp only [decide_eq_true_eq]
        omega
      have hall : rows.filter (fun r => decide (n < r.1)) = rows := by
        refine List.filter_eq_self.mpr fun r' hr' => ?_
        have hlt : r.1 < r'.1 := hr r' hr'
        simp only [decide_eq_true_eq]
        omega
      rw [rowsAfter, List.filter_cons_of_neg (by simpa using hn),
        List.filter_cons_of_pos (by simpa using hn), hnone, hall]
      rfl

/-- After the last of the first `k` rows come the others. -/
theorem Ordered.rowsAfter_take (h : Ordered rows) {k : Nat} (hr : r ∈ (rows.take k).getLast?) :
    rowsAfter r.1 rows = rows.drop k := by
  have hmem : r ∈ rows.take k := List.mem_of_getLast? hr
  have hsplit : rows.take k ++ rows.drop k = rows := List.take_append_drop k rows
  have hpair : Ordered (rows.take k ++ rows.drop k) := hsplit.symm ▸ h
  obtain ⟨htake, -, hcross⟩ := List.pairwise_append.mp hpair
  have hlow : rowsAfter r.1 (rows.take k) = [] := by
    refine List.filter_eq_nil_iff.mpr fun r' hr' => ?_
    obtain ⟨init, hinit⟩ := List.getLast?_eq_some_iff.mp hr
    rw [hinit] at hr' htake
    rcases List.mem_append.mp hr' with hr' | hr'
    · have hlt : r'.1 < r.1 :=
        (List.pairwise_append.mp htake).2.2 r' hr' r List.mem_cons_self
      simp only [decide_eq_true_eq]
      omega
    · rw [List.mem_singleton.mp hr']
      simp
  have hhigh : rowsAfter r.1 (rows.drop k) = rows.drop k :=
    List.filter_eq_self.mpr fun r' hr' => by
      simpa using hcross r hmem r' hr'
  calc rowsAfter r.1 rows
      = rowsAfter r.1 (rows.take k ++ rows.drop k) := by rw [hsplit]
    _ = rowsAfter r.1 (rows.take k) ++ rowsAfter r.1 (rows.drop k) := List.filter_append ..
    _ = rows.drop k := by rw [hlow, hhigh, List.nil_append]

theorem rowsAfter_rowsAfter {m : Int} (h : n ≤ m) : rowsAfter m (rowsAfter n rows) = rowsAfter m rows := by
  rw [rowsAfter, rowsAfter, List.filter_filter, rowsAfter]
  refine List.filter_congr fun r _ => ?_
  rw [Bool.and_eq_left_iff_imp, decide_eq_true_eq, decide_eq_true_eq]
  omega

/-- A scan step: after the last row of a chunk come the rows the chunk left. -/
theorem Ordered.rowsAfter_chunk (h : Ordered rows) {k : Nat}
    (hr : r ∈ ((rowsAfter n rows).take k).getLast?) :
    rowsAfter r.1 rows = (rowsAfter n rows).drop k := by
  have hmem : r ∈ rowsAfter n rows := List.mem_of_mem_take (List.mem_of_getLast? hr)
  have hlt : n < r.1 := by simpa using (List.mem_filter.mp hmem).2
  have hstep : rowsAfter r.1 (rowsAfter n rows) = (rowsAfter n rows).drop k :=
    Ordered.rowsAfter_take (h.filter _) hr
  rw [← hstep, rowsAfter_rowsAfter (Int.le_of_lt hlt)]

end Ordered

/-! ## Bisection -/

/-- The turns of a bisection between two positions, for the first key above `x`. -/
def bisectRight.search (keys : List Int) (x : Int) : Nat → Nat → Nat → Nat
  | 0, lo, _ => lo
  | n + 1, lo, hi =>
    if lo < hi then
      let mid := (lo + hi) / 2
      if x < keys.getD mid 0 then search keys x n lo mid else search keys x n (mid + 1) hi
    else lo

/-- The position after the last key at or below `x`; every turn halves the range. -/
def bisectRight (keys : List Int) (x : Int) : Nat :=
  bisectRight.search keys x keys.length 0 keys.length

section Bisect

variable {rows : List (Int × α)} {x : Int}

/-- In ordered rows a key is above `x` exactly from the position on where the keys at or below
`x` end. -/
theorem Ordered.lt_getD (h : Ordered rows) {i : Nat} (hi : i < rows.length) :
    x < (rows.map Prod.fst).getD i 0 ↔ (rows.filter fun r => decide (r.1 ≤ x)).length ≤ i := by
  have hget : (rows.map Prod.fst).getD i 0 = (rows[i]).1 := by
    simp [List.getD, List.getElem?_map, List.getElem?_eq_getElem hi]
  rw [hget]
  constructor
  · intro hlt
    by_contra hlow
    have hmem : rows[i] ∈ rows.filter fun r => decide (r.1 ≤ x) := by
      have hsame : rows[i]? = (rows.filter fun r => decide (r.1 ≤ x))[i]? := by
        conv_lhs => rw [← h.split x]
        exact List.getElem?_append_left (by omega)
      rw [List.getElem?_eq_getElem hi] at hsame
      exact List.mem_of_getElem? hsame.symm
    have hle : (rows[i]).1 ≤ x := by simpa using (List.mem_filter.mp hmem).2
    omega
  · intro hle
    have hsame : rows[i]? = (rowsAfter x rows)[i - (rows.filter fun r => decide (r.1 ≤ x)).length]? := by
      conv_lhs => rw [← h.split x]
      exact List.getElem?_append_right hle
    rw [List.getElem?_eq_getElem hi] at hsame
    have hmem : rows[i] ∈ rowsAfter x rows := List.mem_of_getElem? hsame.symm
    simpa using (List.mem_filter.mp hmem).2

/-- The sought position stays between the two ends. -/
theorem Ordered.search_eq (h : Ordered rows) : ∀ {n lo hi : Nat}, hi ≤ lo + n → hi ≤ rows.length →
    lo ≤ (rows.filter fun r => decide (r.1 ≤ x)).length →
    (rows.filter fun r => decide (r.1 ≤ x)).length ≤ hi →
    bisectRight.search (rows.map Prod.fst) x n lo hi =
      (rows.filter fun r => decide (r.1 ≤ x)).length
  | 0, lo, hi, hn, _, hlo, hhi => by
    rw [bisectRight.search]
    omega
  | n + 1, lo, hi, hn, hlen, hlo, hhi => by
    rw [bisectRight.search]
    split
    · next hlt =>
      have hmid := h.lt_getD (x := x) (i := (lo + hi) / 2) (by omega)
      by_cases hx : x < (rows.map Prod.fst).getD ((lo + hi) / 2) 0
      · simp only [if_pos hx]
        exact h.search_eq (by omega) (by omega) hlo (hmid.mp hx)
      · simp only [if_neg hx]
        have hge : ¬(rows.filter fun r => decide (r.1 ≤ x)).length ≤ (lo + hi) / 2 :=
          fun hle => hx (hmid.mpr hle)
        exact h.search_eq (by omega) hlen (by omega) hhi
    · next hge => omega

theorem Ordered.bisectRight_eq (h : Ordered rows) :
    bisectRight (rows.map Prod.fst) x = (rows.filter fun r => decide (r.1 ≤ x)).length := by
  rw [bisectRight, List.length_map]
  exact h.search_eq (by omega) (Nat.le_refl _) (Nat.zero_le _) (List.length_filter_le _ _)

/-- The row at the bisected position is the first after `x`. -/
theorem Ordered.getElem?_bisectRight (h : Ordered rows) :
    rows[bisectRight (rows.map Prod.fst) x]? = (rowsAfter x rows).head? := by
  rw [h.bisectRight_eq]
  calc rows[(rows.filter fun r => decide (r.1 ≤ x)).length]?
      = (rows.filter (fun r => decide (r.1 ≤ x)) ++
          rowsAfter x rows)[(rows.filter fun r => decide (r.1 ≤ x)).length]? := by rw [h.split x]
    _ = (rowsAfter x rows).head? := by
      rw [List.getElem?_append_right (Nat.le_refl _), Nat.sub_self, List.head?_eq_getElem?]

end Bisect

/-! ## The end of a table -/

section End

variable {p : α → Bool} {l l' : List α} {a : α}

theorem rtakeWhile_append_of_forall (h : ∀ a ∈ l', p a = true) :
    (l ++ l').rtakeWhile p = l.rtakeWhile p ++ l' := by
  rw [List.rtakeWhile, List.reverse_append,
    List.takeWhile_append_of_pos fun a ha => h a (List.mem_reverse.mp ha), List.reverse_append,
    List.reverse_reverse, List.rtakeWhile]

theorem rtakeWhile_append_of_mem (ha : a ∈ l') (hp : p a = false) :
    (l ++ l').rtakeWhile p = l'.rtakeWhile p := by
  have hne : (l'.reverse.takeWhile p).length ≠ l'.reverse.length := by
    intro hlen
    have hself : l'.reverse.takeWhile p = l'.reverse :=
      List.IsPrefix.eq_of_length (List.takeWhile_prefix p) hlen
    have hall := List.takeWhile_eq_self_iff.mp hself a (List.mem_reverse.mpr ha)
    rw [hp] at hall
    cases hall
  rw [List.rtakeWhile, List.reverse_append, List.takeWhile_append, if_neg hne, List.rtakeWhile]

variable {R : α → β → Prop} {q : β → Bool} {bs : List β}

theorem forall₂_takeWhile (h : List.Forall₂ R l bs) (hpq : ∀ a b, R a b → p a = q b) :
    List.Forall₂ R (l.takeWhile p) (bs.takeWhile q) := by
  induction h with
  | nil => exact .nil
  | @cons a b _ _ hab _ ih =>
    rw [List.takeWhile_cons, List.takeWhile_cons, hpq a b hab]
    cases q b with
    | false => exact .nil
    | true => exact .cons hab ih

theorem forall₂_rtakeWhile (h : List.Forall₂ R l bs) (hpq : ∀ a b, R a b → p a = q b) :
    List.Forall₂ R (l.rtakeWhile p) (bs.rtakeWhile q) := by
  rw [List.rtakeWhile, List.rtakeWhile, List.forall₂_reverse_iff]
  exact forall₂_takeWhile (List.forall₂_reverse_iff.mpr h) hpq

theorem forall₂_filter (h : List.Forall₂ R l bs) (hpq : ∀ a b, R a b → p a = q b) :
    List.Forall₂ R (l.filter p) (bs.filter q) := by
  induction h with
  | nil => exact .nil
  | @cons a b _ _ hab _ ih =>
    rw [List.filter_cons, List.filter_cons, hpq a b hab]
    cases q b with
    | false => exact ih
    | true => exact .cons hab ih

end End

end Dsl41.Infra
