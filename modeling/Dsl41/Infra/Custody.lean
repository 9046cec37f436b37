import Mathlib.Data.List.Basic
import Mathlib.Algebra.Order.Group.Multiset
import Mathlib.Logic.Function.Basic

/-!
# Who has each item

Items are recorded for a key and stay with it until the key is settled: each of its items then stays,
goes back or is used up. An item has the number it was recorded under, so that two equal items are two.

* `Custody.Sound` — every item recorded is in one place, once
* `Custody.Sound.record`, `Custody.Sound.settle` — both moves keep it
-/

namespace Dsl41.Infra

inductive Place where
  | held | freed | spent
deriving DecidableEq

structure Custody (κ β : Type) where
  recorded : List (κ × β) := []
  held : κ → List (β × Nat) := fun _ => []
  freed : List (β × Nat) := []
  spent : List (β × Nat) := []

namespace Custody

variable {κ β : Type}

/-- The items of a list that go to a place. -/
def sent (p : Place) (place : β → Place) (items : List (β × Nat)) : List (β × Nat) :=
  items.filter fun t => place t.1 = p

section Moves

variable [DecidableEq κ]

/-- New items of a key, with the next numbers. -/
def record (c : Custody κ β) (k : κ) (items : List β) : Custody κ β :=
  { c with
    recorded := c.recorded ++ items.map fun b => (k, b)
    held := Function.update c.held k (c.held k ++ items.zipIdx c.recorded.length) }

/-- Each item of a key goes where it belongs. -/
def settle (c : Custody κ β) (k : κ) (place : β → Place) : Custody κ β :=
  { c with
    held := Function.update c.held k (sent .held place (c.held k))
    freed := c.freed ++ sent .freed place (c.held k)
    spent := c.spent ++ sent .spent place (c.held k) }

end Moves

/-- Every item recorded is with its key, back or used up: in one of the three lists, and there once. -/
structure Sound (c : Custody κ β) : Prop where
  once : ∀ {n : Nat} {k : κ} {b : β}, c.recorded[n]? = some (k, b) →
    (c.held k ++ (c.freed ++ c.spent)).filter (fun t => t.2 = n) = [(b, n)]
  own : ∀ {k : κ} {t : β × Nat}, t ∈ c.held k → c.recorded[t.2]? = some (k, t.1)
  gone : ∀ t ∈ c.freed ++ c.spent, t.2 < c.recorded.length

variable {c : Custody κ β} {k : κ} {place : β → Place} {items : List β}

theorem sound_empty : ({} : Custody κ β).Sound where
  once h := by cases h
  own h := by cases h
  gone _ h := by cases h

section Lists

variable [DecidableEq κ]

@[simp] theorem settle_held (x : κ) : (c.settle k place).held x =
    if x = k then sent .held place (c.held k) else c.held x := Function.update_apply ..

@[simp] theorem record_held (x : κ) : (c.record k items).held x =
    if x = k then c.held k ++ items.zipIdx c.recorded.length else c.held x := Function.update_apply ..

end Lists

/-- The three parts of a list are the list. -/
theorem sent_perm (l : List (β × Nat)) :
    (sent .held place l ++ (sent .freed place l ++ sent .spent place l)).Perm l := by
  induction l with
  | nil => exact .nil
  | cons t l ih =>
    cases hplace : place t.1 with
    | held => simpa [sent, hplace] using ih
    | freed =>
      have hmiddle : (sent .held place l ++ t :: (sent .freed place l ++ sent .spent place l)).Perm (t :: l) :=
        List.perm_middle.trans (ih.cons t)
      simpa [sent, hplace] using hmiddle
    | spent =>
      have hmiddle : (sent .held place l ++ (sent .freed place l ++ t :: sent .spent place l)).Perm (t :: l) := by
        rw [← List.append_assoc] at ih ⊢
        exact List.perm_middle.trans (ih.cons t)
      simpa [sent, hplace] using hmiddle

theorem mem_of_sent {p : Place} {t : β × Nat} {l : List (β × Nat)} (h : t ∈ sent p place l) : t ∈ l :=
  List.mem_of_mem_filter h

/-- A number is on one item of a numbered list. -/
theorem filter_zipIdx {items : List β} {n m : Nat} {b : β} (h : items[n - m]? = some b) (hm : m ≤ n) :
    (items.zipIdx m).filter (fun t => t.2 = n) = [(b, n)] := by
  induction items generalizing m with
  | nil => cases h
  | cons a items ih =>
    rw [List.zipIdx_cons]
    rcases Nat.eq_or_lt_of_le hm with rfl | hlt
    · rw [Nat.sub_self] at h
      cases h
      have hrest : (items.zipIdx (m + 1)).filter (fun t => t.2 = m) = [] := by
        refine List.filter_eq_nil_iff.mpr fun t ht heq => ?_
        have hle := (List.mem_zipIdx ht).1
        rw [of_decide_eq_true heq] at hle
        omega
      rw [List.filter_cons_of_pos (by simp), hrest]
    · have hsub : n - m = n - (m + 1) + 1 := by omega
      rw [hsub, List.getElem?_cons_succ] at h
      rw [List.filter_cons_of_neg (by simpa using hlt.ne)]
      exact ih h hlt

theorem shuffle_perm (held freed freed' spent spent' : List (β × Nat)) :
    (held ++ ((freed ++ freed') ++ (spent ++ spent'))).Perm ((held ++ (freed' ++ spent')) ++ (freed ++ spent)) := by
  simp only [← Multiset.coe_eq_coe, ← Multiset.coe_add]
  ac_rfl

/-- What a settlement sends off is none of another key's. -/
theorem Sound.sent_other (h : c.Sound) {n : Nat} {x : κ} {b : β} (hx : x ≠ k) (hn : c.recorded[n]? = some (x, b))
    (place : β → Place) (p : Place) : (sent p place (c.held k)).filter (fun t => t.2 = n) = [] := by
  refine List.filter_eq_nil_iff.mpr fun t ht heq => hx ?_
  have hown := h.own (mem_of_sent ht)
  rw [of_decide_eq_true heq, hn] at hown
  exact (Prod.mk.inj (Option.some.inj hown)).1

section Sound

variable [DecidableEq κ]

theorem Sound.settle (h : c.Sound) (k : κ) (place : β → Place) : (c.settle k place).Sound where
  once {n x b} hn := by
    have hn' : c.recorded[n]? = some (x, b) := hn
    have hone := h.once hn'
    show ((c.settle k place).held x ++ ((c.freed ++ sent .freed place (c.held k)) ++
      (c.spent ++ sent .spent place (c.held k)))).filter _ = _
    rw [settle_held]
    split
    · next hx =>
      rw [hx] at hone
      have hparts : ((sent .held place (c.held k) ++ (sent .freed place (c.held k) ++ sent .spent place (c.held k))) ++
          (c.freed ++ c.spent)).Perm (c.held k ++ (c.freed ++ c.spent)) := (sent_perm _).append_right _
      have hall := ((shuffle_perm _ _ _ _ _).trans hparts).filter fun t => t.2 = n
      rw [hone] at hall
      exact List.perm_singleton.mp hall
    · next hx =>
      have hfreed := h.sent_other hx hn' place .freed
      have hspent := h.sent_other hx hn' place .spent
      rw [List.filter_append, List.filter_append] at hone
      simp only [List.filter_append, hfreed, hspent, List.append_nil]
      exact hone
  own {x t} ht := by
    rw [settle_held] at ht
    split at ht
    · next hx =>
      rw [hx]
      exact h.own (mem_of_sent ht)
    · exact h.own ht
  gone t ht := by
    have hlt (hk : t ∈ c.held k) : t.2 < c.recorded.length :=
      (List.getElem?_eq_some_iff.mp (h.own hk)).1
    rcases List.mem_append.mp ht with ht | ht
    · rcases List.mem_append.mp ht with ht | ht
      · exact h.gone t (List.mem_append_left _ ht)
      · exact hlt (mem_of_sent ht)
    · rcases List.mem_append.mp ht with ht | ht
      · exact h.gone t (List.mem_append_right _ ht)
      · exact hlt (mem_of_sent ht)

theorem Sound.record (h : c.Sound) (k : κ) (items : List β) : (c.record k items).Sound where
  once {n x b} hn := by
    have hn' : (c.recorded ++ items.map fun b => (k, b))[n]? = some (x, b) := hn
    show ((c.record k items).held x ++ (c.freed ++ c.spent)).filter _ = _
    rcases lt_or_ge n c.recorded.length with hlt | hge
    · -- an old number is none of the new ones
      rw [List.getElem?_append_left hlt] at hn'
      have hnew : (items.zipIdx c.recorded.length).filter (fun t => t.2 = n) = [] := by
        refine List.filter_eq_nil_iff.mpr fun t ht heq => ?_
        have hle := (List.mem_zipIdx ht).1
        rw [of_decide_eq_true heq] at hle
        omega
      rw [record_held]
      split
      · next hx =>
        rw [← hx, List.filter_append, List.filter_append, hnew, List.append_nil, ← List.filter_append]
        exact h.once hn'
      · exact h.once hn'
    · -- a new number is only on the new items
      rw [List.getElem?_append_right hge, List.getElem?_map] at hn'
      obtain ⟨b', hb', heq⟩ := Option.map_eq_some_iff.mp hn'
      cases heq
      have hold (l : List (β × Nat)) (hl : ∀ t ∈ l, t.2 < c.recorded.length) : l.filter (fun t => t.2 = n) = [] := by
        refine List.filter_eq_nil_iff.mpr fun t ht heq => ?_
        have hlt := hl t ht
        rw [of_decide_eq_true heq] at hlt
        omega
      have hheld : (c.held k).filter (fun t => t.2 = n) = [] :=
        hold _ fun t ht => (List.getElem?_eq_some_iff.mp (h.own ht)).1
      rw [record_held, if_pos rfl, List.filter_append, List.filter_append, hheld, hold _ h.gone, List.nil_append,
        List.append_nil]
      exact filter_zipIdx hb' hge
  own {x t} ht := by
    show (c.recorded ++ items.map fun b => (k, b))[t.2]? = _
    rw [record_held] at ht
    split at ht
    · next hx =>
      rcases List.mem_append.mp ht with ht | ht
      · have hold := h.own ht
        rw [List.getElem?_append_left (List.getElem?_eq_some_iff.mp hold).1, hold, hx]
      · have hitem := List.mem_zipIdx_iff_le_and_getElem?_sub.mp ht
        rw [List.getElem?_append_right hitem.1, List.getElem?_map, hitem.2, hx]
        rfl
    · have hold := h.own ht
      rw [List.getElem?_append_left (List.getElem?_eq_some_iff.mp hold).1, hold]
  gone t ht := by
    show t.2 < (c.recorded ++ items.map fun b => (k, b)).length
    rw [List.length_append]
    exact Nat.lt_of_lt_of_le (h.gone t ht) (Nat.le_add_right _ _)

end Sound

end Custody

end Dsl41.Infra
