import Dsl41.Runner.Payload

/-!
# Fields of a mapping

A field of a value read back in key order is the field of the value, read back.
-/

namespace Dsl41.Runner

open Infra Infra.Json Canon

/-! ## Dictionaries as lists of entries -/

section Entries

variable {κ υ ω : Type} [DecidableEq κ] {k : κ} {es es' : List (κ × υ)}

theorem getIn_perm (hnodup : (es.map Prod.fst).Nodup) (h : es.Perm es') :
    Dict.getIn k es = Dict.getIn k es' := by
  have hnodup' : (es'.map Prod.fst).Nodup := (h.map Prod.fst).nodup_iff.mp hnodup
  cases hget : Dict.getIn k es' with
  | some v =>
    rw [Dict.getIn_eq_some hnodup, h.mem_iff, ← Dict.getIn_eq_some hnodup', hget]
  | none =>
    rw [Option.eq_none_iff_forall_ne_some]
    intro v hv
    rw [Dict.getIn_eq_some hnodup, h.mem_iff, ← Dict.getIn_eq_some hnodup', hget] at hv
    cases hv

theorem mem_of_getIn {v : υ} (h : Dict.getIn k es = some v) : (k, v) ∈ es := by
  induction es with
  | nil => cases h
  | cons e es ih =>
    rw [Dict.getIn] at h
    split at h
    · next hk =>
      cases h
      exact hk ▸ List.mem_cons_self
    · exact List.mem_cons_of_mem _ (ih h)

end Entries

/-! ## Values -/

variable {v w : Value} {key : Str} {es : List (Str × Value)}

theorem sorted_sorted (h : v.IsJson) : v.sorted.sorted = v.sorted :=
  Value.sorted_of_same v.sorted v h (Value.same_sorted v h)

theorem equal_sorted (h : v.IsJson) : equal v.sorted w = equal v w := by
  rw [equal, sorted_sorted h, equal]

theorem equal_congr {v' w' : Value} (hv : v.sorted = v'.sorted) (hw : w.sorted = w'.sorted) :
    equal v w = equal v' w' := by rw [equal, hv, hw, equal]

theorem items_sorted (h : v.IsJson) :
    Dict.getIn key (items v.sorted) = (Dict.getIn key (items v)).map Value.sorted := by
  cases v with
  | mapping es =>
    rw [Value.sorted, Value.sortKeys_sortedObject, items, Dict.getIn_map]
    congr 1
    refine (getIn_perm h.1 ?_).symm
    exact sortKeys_perm.symm
  | none => rfl
  | bool b => rfl
  | int i => rfl
  | float f t => cases h
  | str s => rfl
  | datetime d => cases h
  | list vs => rfl
  | other t => cases h

theorem get_sorted (h : v.IsJson) : dictGet v.sorted key = (dictGet v key).sorted := by
  rw [dictGet, items_sorted h, dictGet]
  cases Dict.getIn key (items v) with
  | none => rfl
  | some w => rfl

/-- An item of a JSON value is one. -/
theorem isJson_getIn (h : v.IsJson) (hw : Dict.getIn key (items v) = some w) : w.IsJson := by
  cases v with
  | mapping es => exact (Value.isObject_iff.mp h.2 (key, w) (mem_of_getIn hw)).2
  | none => cases hw
  | bool b => cases hw
  | int i => cases hw
  | float f t => cases h
  | str s => cases hw
  | datetime d => cases h
  | list vs => cases hw
  | other t => cases h

theorem isJson_get (h : v.IsJson) : (dictGet v key).IsJson := by
  rw [dictGet]
  cases hw : Dict.getIn key (items v) with
  | none => trivial
  | some w => exact isJson_getIn h hw

/-! ## Mappings with named fields -/

/-- A mapping whose keys are names. -/
def named (fields : List (String × Value)) : Value := .mapping (fields.map fun f => (name f.1, f.2))

theorem isJson_named {fields : List (String × Value)} (hnodup : (fields.map Prod.fst).Nodup)
    (h : ∀ f ∈ fields, f.2.IsJson) : (named fields).IsJson := by
  refine ⟨?_, Value.isObject_iff.mpr fun e he => ?_⟩
  · rw [List.map_map]
    have hmap : fields.map (Prod.fst ∘ fun f => (name f.1, f.2)) = (fields.map Prod.fst).map name := by
      rw [List.map_map]
      rfl
    rw [hmap]
    exact hnodup.map fun _ _ => name_inj.mp
  · obtain ⟨f, hf, rfl⟩ := List.mem_map.mp he
    exact ⟨isScalarString_ofChars _, h f hf⟩

theorem written_named (fields : List (String × Value)) :
    (named fields).written = named (fields.map fun f => (f.1, f.2.written)) := by
  rw [named, named, Value.written, List.map_map]
  congr 1
  induction fields with
  | nil => rfl
  | cons f fields ih =>
    rw [List.map_cons, Value.writtenObject, ih]
    rfl

end Dsl41.Runner
