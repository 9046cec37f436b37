import Mathlib.Data.List.Nodup

/-!
# Dictionaries in insertion order

A dictionary holds each key once and lists its entries in the order their keys were first set.
Setting a key that is there replaces its value in place.
-/

namespace Dsl41.Infra

variable {κ υ : Type}

structure Dict (κ υ : Type) where
  entries : List (κ × υ)
  nodup : (entries.map Prod.fst).Nodup

namespace Dict

/-- The value at a key, in a list of entries. -/
def getIn [DecidableEq κ] (k : κ) : List (κ × υ) → Option υ
  | [] => none
  | e :: l => if e.1 = k then some e.2 else getIn k l

/-- The entries once a key is set. -/
def setIn [DecidableEq κ] (k : κ) (v : υ) : List (κ × υ) → List (κ × υ)
  | [] => [(k, v)]
  | e :: l => if e.1 = k then (k, v) :: l else e :: setIn k v l

section Entries

variable [DecidableEq κ]

theorem mem_keys_setIn {k x : κ} {v : υ} : ∀ {l : List (κ × υ)},
    x ∈ (setIn k v l).map Prod.fst ↔ x = k ∨ x ∈ l.map Prod.fst
  | [] => by simp [setIn]
  | e :: l => by
    rw [setIn]
    split
    · next h => simp [h]
    · next h =>
      rw [List.map_cons, List.mem_cons, mem_keys_setIn, List.map_cons, List.mem_cons]
      exact or_left_comm

theorem nodup_setIn {k : κ} {v : υ} : ∀ {l : List (κ × υ)},
    (l.map Prod.fst).Nodup → ((setIn k v l).map Prod.fst).Nodup
  | [], _ => by simp [setIn]
  | e :: l, h => by
    obtain ⟨he, hl⟩ := List.nodup_cons.mp h
    rw [setIn]
    split
    · next hk =>
      rw [List.map_cons, List.nodup_cons]
      exact ⟨hk ▸ he, hl⟩
    · next hk =>
      rw [List.map_cons, List.nodup_cons]
      exact ⟨fun hm => (mem_keys_setIn.mp hm).elim hk he, nodup_setIn hl⟩

theorem getIn_setIn {k x : κ} {v : υ} : ∀ {l : List (κ × υ)},
    getIn x (setIn k v l) = if x = k then some v else getIn x l
  | [] => by simp only [setIn, getIn, eq_comm]
  | e :: l => by
    rw [setIn]
    split
    · next h =>
      subst h
      by_cases hx : x = e.1
      · simp [getIn, hx]
      · simp [getIn, hx, Ne.symm hx]
    · next h =>
      by_cases hx : e.1 = x
      · have hk : x ≠ k := fun hk => h (hx.trans hk)
        simp [getIn, hx, hk]
      · simp only [getIn, if_neg hx, getIn_setIn]

theorem getIn_eq_some {k : κ} {v : υ} : ∀ {l : List (κ × υ)},
    (l.map Prod.fst).Nodup → (getIn k l = some v ↔ (k, v) ∈ l)
  | [], _ => by simp [getIn]
  | (x, w) :: l, h => by
    obtain ⟨hx, hl⟩ := List.nodup_cons.mp h
    have ih : getIn k l = some v ↔ (k, v) ∈ l := getIn_eq_some hl
    by_cases hk : x = k
    · have hout : (k, v) ∉ l := fun hm => hx (List.mem_map.mpr ⟨(k, v), hm, hk.symm⟩)
      simp [getIn, hk, hout, eq_comm]
    · simp [getIn, hk, Ne.symm hk, ih]

theorem getIn_filter {k : κ} {p : κ → Bool} : ∀ {l : List (κ × υ)},
    getIn k (l.filter fun e => p e.1) = if p k then getIn k l else none
  | [] => by simp [getIn]
  | e :: l => by
    rw [List.filter_cons]
    by_cases hk : e.1 = k
    · by_cases hp : p k
      · simp [getIn, hk, hp]
      · simp [hk, hp, getIn_filter]
    · by_cases hp : p e.1
      · simp [getIn, hk, hp, getIn_filter]
      · simp [getIn, hk, hp, getIn_filter]

end Entries

variable (d : Dict κ υ)

def empty : Dict κ υ := ⟨[], List.nodup_nil⟩

instance : EmptyCollection (Dict κ υ) := ⟨empty⟩

/-- The keys, in the order they were first set. -/
def keys : List κ := d.entries.map Prod.fst

theorem keys_nodup : d.keys.Nodup := d.nodup

variable [DecidableEq κ]

def get? (k : κ) : Option υ := getIn k d.entries

def set (k : κ) (v : υ) : Dict κ υ := ⟨setIn k v d.entries, nodup_setIn d.nodup⟩

/-- Keep the entries whose key passes. -/
def keep (p : κ → Bool) : Dict κ υ where
  entries := d.entries.filter fun e => p e.1
  nodup := (d.nodup.sublist (List.Sublist.map Prod.fst List.filter_sublist))

/-- `pop`: the dictionary without a key. -/
def erase (k : κ) : Dict κ υ := d.keep (· ≠ k)

variable {d} {k x : κ} {v : υ}

@[simp] theorem get?_empty : (∅ : Dict κ υ).get? k = none := rfl

theorem get?_set : (d.set k v).get? x = if x = k then some v else d.get? x := getIn_setIn

@[simp] theorem get?_set_self : (d.set k v).get? k = some v := by rw [get?_set, if_pos rfl]

theorem get?_set_ne (h : x ≠ k) : (d.set k v).get? x = d.get? x := by rw [get?_set, if_neg h]

theorem get?_erase : (d.erase k).get? x = if x = k then none else d.get? x := by
  have h : (d.erase k).get? x = if decide (x ≠ k) then d.get? x else none :=
    getIn_filter (p := fun y => decide (y ≠ k))
  by_cases hx : x = k
  · simpa [hx] using h
  · simpa [hx] using h

theorem get?_eq_some : d.get? k = some v ↔ (k, v) ∈ d.entries := getIn_eq_some d.nodup

theorem mem_keys : k ∈ d.keys ↔ ∃ v, d.get? k = some v := by
  simp [keys, get?_eq_some]

theorem get?_eq_none : d.get? k = none ↔ k ∉ d.keys := by
  rw [mem_keys, not_exists, Option.eq_none_iff_forall_ne_some]

theorem setIn_of_notMem : ∀ {l : List (κ × υ)}, k ∉ l.map Prod.fst → setIn k v l = l ++ [(k, v)]
  | [], _ => rfl
  | e :: l, h => by
    rw [List.map_cons, List.mem_cons, not_or] at h
    rw [setIn, if_neg (Ne.symm h.1), setIn_of_notMem h.2, List.cons_append]

/-- A new key is set after the others. -/
theorem entries_set (h : k ∉ d.keys) : (d.set k v).entries = d.entries ++ [(k, v)] :=
  setIn_of_notMem h

omit [DecidableEq κ] in
theorem ext_entries {d d' : Dict κ υ} (h : d.entries = d'.entries) : d = d' := by
  cases d with
  | mk entries _ =>
    cases d'
    cases h
    rfl

/-! ## The values through a function -/

section MapValues

variable {υ' : Type} (f : υ → υ')

def mapValues (d : Dict κ υ) : Dict κ υ' where
  entries := d.entries.map fun e => (e.1, f e.2)
  nodup := by
    rw [List.map_map]
    exact d.nodup

theorem getIn_map : ∀ {l : List (κ × υ)},
    getIn x (l.map fun e => (e.1, f e.2)) = (getIn x l).map f
  | [] => rfl
  | e :: l => by
    rw [List.map_cons, getIn, getIn]
    split
    · rfl
    · exact getIn_map

@[simp] theorem get?_mapValues : (d.mapValues f).get? x = (d.get? x).map f := getIn_map f

theorem setIn_map : ∀ {l : List (κ × υ)},
    setIn k (f v) (l.map fun e => (e.1, f e.2)) = (setIn k v l).map fun e => (e.1, f e.2)
  | [] => rfl
  | e :: l => by
    rw [List.map_cons, setIn, setIn]
    split
    · rfl
    · rw [List.map_cons, setIn_map]

theorem mapValues_set : (d.set k v).mapValues f = (d.mapValues f).set k (f v) :=
  ext_entries (setIn_map f).symm

end MapValues

/-! ## Dictionaries within one another -/

/-- What a dictionary binds, the other binds alike. -/
def Sub (d d' : Dict κ υ) : Prop := ∀ k v, d.get? k = some v → d'.get? k = some v

variable {d' d'' : Dict κ υ}

theorem Sub.refl : d.Sub d := fun _ _ h => h

theorem Sub.trans (h : d.Sub d') (h' : d'.Sub d'') : d.Sub d'' := fun k v hk => h' k v (h k v hk)

theorem sub_empty : (∅ : Dict κ υ).Sub d := fun _ _ h => nomatch h

theorem sub_set (h : d.get? k = none) : d.Sub (d.set k v) := by
  intro x w hx
  have hne : x ≠ k := fun hxk => by
    rw [hxk, h] at hx
    cases hx
  rw [get?_set_ne hne, hx]

/-- A dictionary stays within another when a key gets the value it has there. -/
theorem Sub.set (h : d.Sub d') (hk : d'.get? k = some v) : (d.set k v).Sub d' := by
  intro x w hx
  rw [get?_set] at hx
  split at hx
  · next hxk =>
    cases hx
    rwa [hxk]
  · exact h x w hx

theorem Sub.get?_eq (h : d.Sub d') (hk : d.get? k ≠ none) : d.get? k = d'.get? k := by
  obtain ⟨v, hv⟩ := Option.ne_none_iff_exists'.mp hk
  rw [hv, h k v hv]

/-! ## Dictionaries with related values -/

section Rel

variable {υ' : Type} {R : υ → υ' → Prop} {e : Dict κ υ'} {w : υ'}

/-- The same keys, with related values. -/
def Rel (R : υ → υ' → Prop) (d : Dict κ υ) (e : Dict κ υ') : Prop :=
  ∀ k, Option.Rel R (d.get? k) (e.get? k)

theorem rel_empty : Rel R (∅ : Dict κ υ) (∅ : Dict κ υ') := fun _ => .none

theorem Rel.set (h : Rel R d e) (hv : R v w) : Rel R (d.set k v) (e.set k w) := by
  intro x
  rw [get?_set, get?_set]
  split
  · exact .some hv
  · exact h x

theorem Rel.erase (h : Rel R d e) : Rel R (d.erase k) (e.erase k) := by
  intro x
  rw [get?_erase, get?_erase]
  split
  · exact .none
  · exact h x

theorem Rel.some (h : Rel R d e) (hv : d.get? k = some v) : ∃ w, e.get? k = some w ∧ R v w := by
  have hk := h k
  rw [hv] at hk
  cases hw : e.get? k with
  | none =>
    rw [hw] at hk
    cases hk
  | some w =>
    rw [hw] at hk
    cases hk with
    | some hr => exact ⟨w, rfl, hr⟩

theorem Rel.none (h : Rel R d e) (hv : d.get? k = none) : e.get? k = none := by
  have hk := h k
  rw [hv] at hk
  cases hw : e.get? k with
  | none => rfl
  | some w =>
    rw [hw] at hk
    cases hk

theorem Rel.symm {R' : υ' → υ → Prop} (h : Rel R d e) (hr : ∀ {v w}, R v w → R' w v) : Rel R' e d := by
  intro k
  cases hv : d.get? k with
  | none =>
    rw [h.none hv]
    exact .none
  | some v =>
    obtain ⟨w, hw, hvw⟩ := h.some hv
    rw [hw]
    exact .some (hr hvw)

end Rel

/-! ## Dictionaries set from a list -/

section SetAll

variable {ι : Type} {key : ι → κ} {val : ι → υ} {l l' : List ι}

/-- The entries of a list set one after the other. -/
def setAll (key : ι → κ) (val : ι → υ) (l : List ι) (d : Dict κ υ) : Dict κ υ :=
  l.foldl (fun d i => d.set (key i) (val i)) d

/-- With each key once, the order of the list leaves no choice. -/
theorem get?_setAll (hnodup : (l.map key).Nodup) :
    (setAll key val l d).get? k = some v ↔
      (∃ i ∈ l, key i = k ∧ val i = v) ∨ (k ∉ l.map key ∧ d.get? k = some v) := by
  induction l generalizing d with
  | nil => simp [setAll]
  | cons i l ih =>
    obtain ⟨hi, hl⟩ := List.nodup_cons.mp hnodup
    show (setAll key val l (d.set (key i) (val i))).get? k = some v ↔ _
    rw [ih hl, get?_set, List.map_cons, List.mem_cons]
    constructor
    · rintro (⟨j, hj, hk, hv⟩ | ⟨hk, hv⟩)
      · exact Or.inl ⟨j, List.mem_cons_of_mem _ hj, hk, hv⟩
      · split at hv
        · next heq => exact Or.inl ⟨i, List.mem_cons_self, heq.symm, Option.some.inj hv⟩
        · next hne => exact Or.inr ⟨fun h => h.elim hne hk, hv⟩
    · rintro (⟨j, hj, hk, hv⟩ | ⟨hk, hv⟩)
      · rcases List.mem_cons.mp hj with rfl | hj
        · refine Or.inr ⟨hk ▸ hi, ?_⟩
          rw [if_pos hk.symm, hv]
        · exact Or.inl ⟨j, hj, hk, hv⟩
      · rw [not_or] at hk
        exact Or.inr ⟨hk.2, by rwa [if_neg hk.1]⟩

/-- A list with the keys of a dictionary, and with related values, sets a related one. -/
theorem rel_setAll {υ' : Type} {R : υ → υ' → Prop} {e : Dict κ υ'} (hnodup : (l.map key).Nodup)
    (hmem : ∀ i ∈ l, ∃ w, e.get? (key i) = some w ∧ R (val i) w)
    (hall : ∀ k w, e.get? k = some w → k ∈ l.map key) : Rel R (setAll key val l ∅) e := by
  intro k
  cases hv : (setAll key val l ∅).get? k with
  | some v =>
    rcases (get?_setAll hnodup).mp hv with ⟨i, hi, rfl, rfl⟩ | ⟨-, hnone⟩
    · obtain ⟨w, hw, hr⟩ := hmem i hi
      rw [hw]
      exact .some hr
    · cases hnone
  | none =>
    cases hw : e.get? k with
    | none => exact .none
    | some w =>
      obtain ⟨i, hi, hk⟩ := List.mem_map.mp (hall k w hw)
      have hset : (setAll key val l ∅).get? k = some (val i) :=
        (get?_setAll hnodup).mpr (Or.inl ⟨i, hi, hk, rfl⟩)
      rw [hv] at hset
      cases hset

/-- The values of a dictionary, in any order, set under the keys they have in it. -/
theorem rel_values {υ' : Type} {R : υ' → υ → Prop} {key : υ → κ} {val : υ → υ'} {l : List υ}
    {d : Dict κ υ} (hl : l.Perm (d.entries.map Prod.snd))
    (hkey : ∀ k v, d.get? k = some v → key v = k) (hr : ∀ k v, d.get? k = some v → R (val v) v) :
    Rel R (setAll key val l ∅) d := by
  have hkeys : (d.entries.map Prod.snd).map key = d.keys := by
    rw [List.map_map, keys]
    exact List.map_congr_left fun e he => hkey e.1 e.2 (get?_eq_some.mpr he)
  refine rel_setAll ?_ (fun v hv => ?_) fun k v hget => ?_
  · rw [(hl.map key).nodup_iff, hkeys]
    exact d.keys_nodup
  · obtain ⟨⟨k, v'⟩, he, rfl⟩ := List.mem_map.mp (hl.mem_iff.mp hv)
    have hget : d.get? k = some v' := get?_eq_some.mpr he
    exact ⟨v', by rw [hkey k v' hget, hget], hr k v' hget⟩
  · rw [(hl.map key).mem_iff, hkeys]
    exact mem_keys.mpr ⟨v, hget⟩

/-- A loop whose every step sets one entry sets them all. -/
theorem foldlM_set {ε : Type} {f : Dict κ υ → ι → Except ε (Dict κ υ)} :
    ∀ {l : List ι} {d : Dict κ υ}, (∀ i ∈ l, ∀ d, f d i = .ok (d.set (key i) (val i))) →
      l.foldlM f d = .ok (setAll key val l d)
  | [], d, _ => rfl
  | i :: l, d, h => by
    rw [List.foldlM_cons, h i List.mem_cons_self]
    exact foldlM_set fun j hj => h j (List.mem_cons_of_mem _ hj)

end SetAll

end Dict

end Dsl41.Infra
