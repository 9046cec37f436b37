import Mathlib.Data.Finset.Card
import Dsl41.Infra.Dict
import Dsl41.Infra.Digraph

/-!
# Chasing references

A key is noted with what it defines, then its successors are chased; a noted key is not chased
again. Only finitely many keys have successors, so the chase ends even where references come back.

* `chase_spec` — what one chase notes
* `chase_succ` — more turns change nothing
* `chaseAll_get?` — from nothing, the keys that the roots reach are noted
-/

namespace Dsl41.Infra

variable {κ υ : Type} [DecidableEq κ] (define : κ → υ) (next : κ → List κ)

/-- The chase of a key. -/
def chase : Nat → κ → Dict κ υ → Dict κ υ
  | 0, _, seen => seen
  | n + 1, key, seen =>
    if key ∈ seen.keys then seen
    else (next key).foldl (fun seen key => chase n key seen) (seen.set key (define key))

/-- The chases of several keys, one after the other. -/
def chaseAll (n : Nat) (roots : List κ) (seen : Dict κ υ) : Dict κ υ :=
  roots.foldl (fun seen key => chase define next n key seen) seen

def Leads (a b : κ) : Prop := b ∈ next a

/-- What chasing the roots adds: they are noted, and every new key is reached, defined and followed. -/
structure Chased (roots : List κ) (seen seen' : Dict κ υ) : Prop where
  sub : seen.Sub seen'
  noted : ∀ k ∈ roots, k ∈ seen'.keys
  new : ∀ k v, seen.get? k = none → seen'.get? k = some v →
    v = define k ∧ (∃ root ∈ roots, Reaches (Leads next) root k) ∧ ∀ s ∈ next k, s ∈ seen'.keys

variable {define next} {roots rest : List κ} {key : κ} {seen seen' mid : Dict κ υ} {n : Nat} {U : Finset κ}

theorem Dict.Sub.mem_keys (h : seen.Sub seen') {k : κ} (hk : k ∈ seen.keys) : k ∈ seen'.keys := by
  obtain ⟨v, hv⟩ := Dict.mem_keys.mp hk
  exact Dict.mem_keys.mpr ⟨v, h k v hv⟩

namespace Chased

theorem nil : Chased define next [] seen seen where
  sub := .refl
  noted := nofun
  new _ _ hnone hsome := nomatch hnone.symm.trans hsome

theorem append (h : Chased define next roots seen mid) (h' : Chased define next rest mid seen') :
    Chased define next (roots ++ rest) seen seen' where
  sub := h.sub.trans h'.sub
  noted k hk := by
    rcases List.mem_append.mp hk with hk | hk
    · exact h'.sub.mem_keys (h.noted k hk)
    · exact h'.noted k hk
  new k v hnone hsome := by
    cases hmid : mid.get? k with
    | none =>
      obtain ⟨hv, ⟨root, hroot, hreach⟩, hnext⟩ := h'.new k v hmid hsome
      exact ⟨hv, ⟨root, List.mem_append_right _ hroot, hreach⟩, hnext⟩
    | some w =>
      obtain ⟨hw, ⟨root, hroot, hreach⟩, hnext⟩ := h.new k w hnone hmid
      obtain rfl : w = v := Option.some.inj ((h'.sub k w hmid).symm.trans hsome)
      exact ⟨hw, ⟨root, List.mem_append_left _ hroot, hreach⟩, fun s hs => h'.sub.mem_keys (hnext s hs)⟩

/-- A key that is noted already. -/
theorem again (h : key ∈ seen.keys) : Chased define next [key] seen seen where
  sub := .refl
  noted _ hk := List.mem_singleton.mp hk ▸ h
  new _ _ hnone hsome := nomatch hnone.symm.trans hsome

/-- A new key, and then its successors. -/
theorem enter (hkey : key ∉ seen.keys) (h : Chased define next (next key) (seen.set key (define key)) seen') :
    Chased define next [key] seen seen' where
  sub := (Dict.sub_set (Dict.get?_eq_none.mpr hkey)).trans h.sub
  noted _ hk := by
    rw [List.mem_singleton.mp hk]
    exact Dict.mem_keys.mpr ⟨_, h.sub _ _ Dict.get?_set_self⟩
  new k v hnone hsome := by
    by_cases heq : k = key
    · subst heq
      have hset := h.sub _ _ (Dict.get?_set_self (d := seen) (k := k) (v := define k))
      exact ⟨Option.some.inj (hsome.symm.trans hset), ⟨k, List.mem_singleton_self k, .refl⟩, h.noted⟩
    · have hnone' : (seen.set key (define key)).get? k = none := (Dict.get?_set_ne heq).trans hnone
      obtain ⟨hv, ⟨root, hroot, hreach⟩, hnext⟩ := h.new k v hnone' hsome
      exact ⟨hv, ⟨key, List.mem_singleton_self key, .head hroot hreach⟩, hnext⟩

end Chased

/-- The keys that may still be entered. -/
def unseen (U : Finset κ) (seen : Dict κ υ) : Nat := (U.filter fun k => k ∉ seen.keys).card

theorem unseen_le (h : seen.Sub seen') : unseen U seen' ≤ unseen U seen :=
  Finset.card_le_card fun k hk => by
    obtain ⟨hU, hk⟩ := Finset.mem_filter.mp hk
    exact Finset.mem_filter.mpr ⟨hU, fun hmem => hk (h.mem_keys hmem)⟩

theorem unseen_set {v : υ} (hU : key ∈ U) (hkey : key ∉ seen.keys) : unseen U (seen.set key v) < unseen U seen := by
  refine Finset.card_lt_card ⟨fun k hk => ?_, fun h => ?_⟩
  · obtain ⟨hU, hk⟩ := Finset.mem_filter.mp hk
    exact Finset.mem_filter.mpr ⟨hU, fun hmem => hk ((Dict.sub_set (Dict.get?_eq_none.mpr hkey)).mem_keys hmem)⟩
  · have hmem := (Finset.mem_filter.mp (h (Finset.mem_filter.mpr ⟨hU, hkey⟩))).2
    exact hmem (Dict.mem_keys.mpr ⟨v, Dict.get?_set_self⟩)

/-- With a turn for every key that may still be entered, the chase notes what it should. -/
theorem chase_spec (hU : ∀ k, next k ≠ [] → k ∈ U) : ∀ (n : Nat) {key : κ} {seen : Dict κ υ}, unseen U seen < n →
    Chased define next [key] seen (chase define next n key seen)
  | n + 1, key, seen, hn => by
    rw [chase]
    split
    · next h => exact .again h
    · next h =>
      refine .enter h ?_
      by_cases hnil : next key = []
      · rw [hnil]
        exact .nil
      · have hfew : unseen U (seen.set key (define key)) < n :=
          lt_of_lt_of_le (unseen_set (hU key hnil) h) (Nat.lt_succ_iff.mp hn)
        -- the successors are chased one after the other, and fewer keys are left for each
        generalize seen.set key (define key) = seen at hfew ⊢
        induction next key generalizing seen with
        | nil => exact .nil
        | cons s ss ih =>
          have hfirst : Chased define next [s] seen _ := chase_spec hU n hfew
          exact hfirst.append (ih _ (lt_of_le_of_lt (unseen_le hfirst.sub) hfew))

theorem chaseAll_spec (hU : ∀ k, next k ≠ [] → k ∈ U) : ∀ {roots : List κ} {seen : Dict κ υ}, unseen U seen < n →
    Chased define next roots seen (chaseAll define next n roots seen)
  | [], _, _ => .nil
  | _ :: _, _, hn =>
    have hfirst := chase_spec hU n hn
    hfirst.append (chaseAll_spec hU (lt_of_le_of_lt (unseen_le hfirst.sub) hn))

/-- From nothing, the keys that the roots reach are noted, with what they define. -/
theorem chaseAll_get? (hU : ∀ k, next k ≠ [] → k ∈ U) (hn : U.card < n) {k : κ} {v : υ} :
    (chaseAll define next n roots ∅).get? k = some v ↔
      (∃ root ∈ roots, Reaches (Leads next) root k) ∧ v = define k := by
  have hall := @chaseAll_spec _ _ _ define next n U hU roots ∅ (lt_of_le_of_lt (Finset.card_filter_le _ _) hn)
  have hnew : ∀ {k w}, (chaseAll define next n roots ∅).get? k = some w → _ := fun {k w} h => hall.new k w Dict.get?_empty h
  constructor
  · intro h
    exact ⟨(hnew h).2.1, (hnew h).1⟩
  · rintro ⟨⟨root, hroot, hreach⟩, rfl⟩
    have hmem : k ∈ (chaseAll define next n roots ∅).keys := by
      refine mem_of_reaches (fun a ha b hab => ?_) hreach (hall.noted root hroot)
      obtain ⟨w, hw⟩ := Dict.mem_keys.mp ha
      exact (hnew hw).2.2 b hab
    obtain ⟨w, hw⟩ := Dict.mem_keys.mp hmem
    rw [hw, (hnew hw).1]

end Dsl41.Infra
