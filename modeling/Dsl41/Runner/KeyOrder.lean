import Dsl41.Runner.Codec
import Dsl41.Runner.Named

/-!
# Readings that key order has no part in

Canonical bytes list the entries of a mapping by key, so what is decoded from them is the value
with its entries in another order. What the readers take of it is the same.
-/

namespace Dsl41.Runner

open Infra Infra.Json Canon

/-! ## Values -/

variable {v w : Value} {key : Str} {es : List (Str × Value)}

theorem field_sorted {β : Type} {f g : Value → Except Fault β} (h : v.IsJson)
    (hf : ∀ w, w.IsJson → f w.sorted = g w) :
    (field? v.sorted key >>= f) = (field? v key >>= g) := by
  rw [field?, items_sorted h, field?]
  cases hw : Dict.getIn key (items v) with
  | none => rfl
  | some w => exact hf w (isJson_getIn h hw)

theorem item_eq (v : Value) (key : Str) : item v key =
    match v with
    | .mapping es =>
      match Dict.getIn key es with
      | some w => .ok w
      | none => .error (.keyError (.inl key))
    | _ => .error .typeError := rfl

theorem item_ok_iff : item v key = .ok w ↔ Dict.getIn key (items v) = some w := by
  cases v with
  | mapping es =>
    rw [item, items]
    cases Dict.getIn key es with
    | none => exact ⟨by rintro ⟨⟩, by rintro ⟨⟩⟩
    | some u =>
      constructor
      · intro h; cases h; rfl
      · intro h; cases h; rfl
  | none => exact ⟨by rintro ⟨⟩, by rintro ⟨⟩⟩
  | bool b => exact ⟨by rintro ⟨⟩, by rintro ⟨⟩⟩
  | int i => exact ⟨by rintro ⟨⟩, by rintro ⟨⟩⟩
  | float f t => exact ⟨by rintro ⟨⟩, by rintro ⟨⟩⟩
  | str s => exact ⟨by rintro ⟨⟩, by rintro ⟨⟩⟩
  | datetime d => exact ⟨by rintro ⟨⟩, by rintro ⟨⟩⟩
  | list vs => exact ⟨by rintro ⟨⟩, by rintro ⟨⟩⟩
  | other t => exact ⟨by rintro ⟨⟩, by rintro ⟨⟩⟩

/-- An item of a value read back. -/
theorem item_sorted (h : v.IsJson) (hw : item v key = .ok w) : item v.sorted key = .ok w.sorted := by
  rw [item_ok_iff] at hw ⊢
  rw [items_sorted h, hw]
  rfl

theorem truthy_sorted : ∀ v : Value, truthy v.sorted = truthy v
  | .mapping es => by
    rw [Value.sorted, Value.sortKeys_sortedObject, truthy, truthy]
    have hlen : ((sortKeys es).map fun e => (e.1, e.2.sorted)).length = es.length := by
      rw [List.length_map, sortKeys_perm.length_eq]
    rw [Bool.eq_iff_iff]
    simp only [Bool.not_eq_true', List.isEmpty_eq_false_iff, ne_eq, ← List.length_eq_zero_iff, hlen]
  | .list vs => by
    rw [Value.sorted, Value.sortedArray_eq, truthy, truthy, List.isEmpty_map]
  | .none | .bool _ | .int _ | .float _ _ | .str _ | .datetime _ | .other _ => rfl

/-! ## Checks -/

section Checks

variable (L : Library)

/-- A check of every entry reads the entries of a mapping in any order. -/
theorem all_sorted {p : Str × Value → Bool} (es : List (Str × Value))
    (hp : ∀ e, p (e.1, e.2.sorted) = p e) :
    (sortKeys (Value.sortedObject es)).all p = es.all p := by
  rw [Value.sortKeys_sortedObject, Bool.eq_iff_iff, List.all_eq_true, List.all_eq_true]
  constructor
  · intro h e he
    have := h (e.1, e.2.sorted) (List.mem_map.mpr ⟨e, mem_sortKeys.mpr he, rfl⟩)
    rwa [hp] at this
  · intro h e he
    obtain ⟨e', he', rfl⟩ := List.mem_map.mp he
    rw [hp]
    exact h e' (mem_sortKeys.mp he')

theorem checkInt_sorted (name : String) (least : Int) (v : Value) :
    checkInt name least v.sorted = checkInt name least v := by
  cases v <;> rfl

theorem checkSpool_sorted (v : Value) : checkSpool v.sorted = checkSpool v := by cases v <;> rfl

theorem checkJob_sorted (v : Value) : checkJob v.sorted = checkJob v := by cases v <;> rfl

theorem checkAttempt_sorted (v : Value) : checkAttempt v.sorted = checkAttempt v := by cases v <;> rfl

theorem checkCwd_sorted (v : Value) : checkCwd v.sorted = checkCwd v := by cases v <;> rfl

theorem checkInstant_sorted (v : Value) : checkInstant L v.sorted = checkInstant L v := by
  cases v <;> rfl

theorem isEnvEntry_sorted (e : Str × Value) : isEnvEntry (e.1, e.2.sorted) = isEnvEntry e := by
  obtain ⟨k, v⟩ := e
  cases v <;> rfl

theorem isPathEntry_sorted (e : Str × Value) : isPathEntry (e.1, e.2.sorted) = isPathEntry e := by
  obtain ⟨k, v⟩ := e
  cases v <;> rfl

theorem checkEnv_sorted (name : String) (v : Value) : checkEnv name v.sorted = checkEnv name v := by
  cases v with
  | mapping es => rw [Value.sorted, checkEnv, checkEnv, all_sorted es isEnvEntry_sorted]
  | _ => rfl

theorem checkPaths_sorted (h : v.IsJson) : checkPaths v.sorted = checkPaths v := by
  cases v with
  | mapping es =>
    have hget : ∀ key, Dict.getIn key (sortKeys (Value.sortedObject es)) =
        (Dict.getIn key es).map Value.sorted := fun _ => items_sorted h
    have hlen : (sortKeys (Value.sortedObject es)).length = es.length := by
      rw [Value.sortKeys_sortedObject, List.length_map, sortKeys_perm.length_eq]
    have hempty : (sortKeys (Value.sortedObject es)).isEmpty = es.isEmpty := by
      rw [Bool.eq_iff_iff, List.isEmpty_iff_length_eq_zero, List.isEmpty_iff_length_eq_zero, hlen]
    rw [Value.sorted, checkPaths, checkPaths, all_sorted es isPathEntry_sorted, hlen, hempty]
    simp only [hget, Option.isSome_map]
  | _ => rfl

theorem get_sorted_str (h : v.IsJson) (key : Str) (w : Value) :
    equal (dictGet v.sorted key) w = equal (dictGet v key) w := by
  rw [get_sorted h, equal_sorted (isJson_get h)]

theorem checkIdentity_sorted (job run_number ordinal first : Value) (h : v.IsJson) :
    checkIdentity job.sorted run_number.sorted ordinal.sorted first.sorted v.sorted =
      checkIdentity job run_number ordinal first v := by
  cases job <;> try rfl
  cases run_number <;> try rfl
  cases ordinal <;> try rfl
  cases first <;> try rfl
  simp only [Value.sorted, checkIdentity, get_sorted_str h]

theorem checkTag_sorted {attempt job run_number : Value} (tag : Value) (ha : attempt.IsJson)
    (hj : job.IsJson) (hr : run_number.IsJson) :
    checkTag L attempt.sorted job.sorted run_number.sorted tag.sorted =
      checkTag L attempt job run_number tag := by
  have hright : ∀ {u w : Value}, u.IsJson → equal w u.sorted = equal w u := fun hu =>
    equal_congr rfl (sorted_sorted hu)
  cases tag with
  | str text => simp only [Value.sorted, checkTag, hright ha, hright hj, hright hr]
  | _ => rfl

theorem checkInherited_sorted (w : Value) (h : v.IsJson) :
    checkInherited w.sorted v.sorted = checkInherited w v := by
  have hany : (items w.sorted).any (fun e => (Dict.getIn e.1 (items v.sorted)).isSome ||
      e.1 ∈ GENERATED_NAMES ++ INSTANCE_NAMES) =
      (items w).any fun e => (Dict.getIn e.1 (items v)).isSome ||
        e.1 ∈ GENERATED_NAMES ++ INSTANCE_NAMES := by
    simp only [items_sorted h, Option.isSome_map]
    cases w with
    | mapping es =>
      have hnot := all_sorted (p := fun e => !((Dict.getIn e.1 (items v)).isSome ||
        decide (e.1 ∈ GENERATED_NAMES ++ INSTANCE_NAMES))) es fun _ => rfl
      rw [← Bool.not_inj_iff, List.not_any_eq_all_not, List.not_any_eq_all_not]
      exact hnot
    | _ => rfl
  rw [checkInherited, hany, checkInherited]

/-- A dispatch is checked the same after its entries are listed by key. -/
theorem dispatchFault_sorted (h : v.IsJson) : dispatchFault L v.sorted = dispatchFault L v := by
  have hbind : ∀ {x x' : Except Fault Unit} {f g : Unit → Except Fault Unit}, x = x' →
      (∀ u, f u = g u) → (x >>= f) = (x' >>= g) := fun hx hf => by rw [hx, funext hf]
  refine field_sorted h fun first _ => hbind (checkInt_sorted _ _ first) fun _ => ?_
  refine field_sorted h fun run _ => hbind (checkInt_sorted _ _ run) fun _ => ?_
  refine field_sorted h fun ordinal _ => hbind (checkInt_sorted _ _ ordinal) fun _ => ?_
  refine field_sorted h fun rev _ => hbind (checkInt_sorted _ _ rev) fun _ => ?_
  refine field_sorted h fun spool _ => hbind (checkSpool_sorted spool) fun _ => ?_
  refine field_sorted h fun job _ => hbind (checkJob_sorted job) fun _ => ?_
  refine field_sorted h fun attempt _ => hbind (checkAttempt_sorted attempt) fun _ => ?_
  refine field_sorted h fun env henv => hbind (checkEnv_sorted _ env) fun _ => ?_
  refine field_sorted h fun inherited _ => hbind (checkEnv_sorted _ inherited) fun _ => ?_
  refine hbind (checkIdentity_sorted job run ordinal first henv) fun _ => hbind ?_ fun _ => ?_
  · rw [get_sorted henv]
    exact checkTag_sorted L _ ‹_› ‹_› ‹_›
  refine field_sorted henv fun scheduled _ => hbind (checkInstant_sorted L scheduled) fun _ => ?_
  refine field_sorted h fun started _ => hbind (checkInstant_sorted L started) fun _ => ?_
  refine hbind (checkInherited_sorted inherited henv) fun _ => ?_
  refine field_sorted h fun cwd _ => hbind (checkCwd_sorted cwd) fun _ => ?_
  exact field_sorted h fun paths hpaths => checkPaths_sorted hpaths

theorem checkDispatch_sorted (h : v.IsJson) : checkDispatch L v.sorted = checkDispatch L v := by
  rw [checkDispatch, dispatchFault_sorted L h, checkDispatch]

theorem checkReplacementEnv_sorted (h : v.IsJson) :
    checkReplacementEnv v.sorted = checkReplacementEnv v := by
  cases v with
  | mapping es =>
    have hget : dictGet (Value.mapping es).sorted (name "DSL41_SCHEDULED_AT") =
        (dictGet (.mapping es) (name "DSL41_SCHEDULED_AT")).sorted := get_sorted h
    obtain ⟨es', hsorted⟩ : ∃ es', (Value.mapping es).sorted = .mapping es' := ⟨_, rfl⟩
    rw [hsorted] at hget ⊢
    rw [checkReplacementEnv, hget, checkReplacementEnv]
    cases dictGet (.mapping es) (name "DSL41_SCHEDULED_AT") <;> rfl
  | _ => rfl

/-- The steps of a plan are checked the same, too. -/
theorem checkStep_sorted (h : v.IsJson) : checkStep v.sorted = checkStep v := by
  cases v with
  | mapping es =>
    show (if equal (dictGet (Value.mapping es).sorted (name "step")) (.str (name "dispatch")) then
      checkReplacementEnv (dictGet (Value.mapping es).sorted (name "env")) else .ok ()) = _
    rw [get_sorted_str h, get_sorted h, checkReplacementEnv_sorted (isJson_get h)]
    rfl
  | _ => rfl

theorem forM_congr {α : Type} {f g : α → Except Error Unit} {l : List α} (h : ∀ a ∈ l, f a = g a) :
    l.forM f = l.forM g := by
  induction l with
  | nil => rfl
  | cons a l ih =>
    show (f a >>= fun _ => l.forM f) = (g a >>= fun _ => l.forM g)
    rw [h a List.mem_cons_self, ih fun b hb => h b (List.mem_cons_of_mem _ hb)]

theorem forM_map {α β : Type} {f : β → Except Error Unit} {g : α → β} {l : List α} :
    (l.map g).forM f = l.forM fun a => f (g a) := by
  induction l with
  | nil => rfl
  | cons a l ih =>
    show (f (g a) >>= fun _ => (l.map g).forM f) = (f (g a) >>= fun _ => l.forM fun a => f (g a))
    rw [ih]

theorem isArray_iff : ∀ {vs : List Value}, Value.IsArray vs ↔ ∀ v ∈ vs, v.IsJson
  | [] => by simp [Value.IsArray]
  | v :: vs => by simp [Value.IsArray, isArray_iff]

theorem checkSteps_sorted {vs : List Value} (h : ∀ v ∈ vs, v.IsJson) :
    checkSteps (.list (vs.map Value.sorted)) = checkSteps (.list vs) := by
  show (vs.map Value.sorted).forM checkStep = vs.forM checkStep
  rw [forM_map]
  exact forM_congr fun v hv => checkStep_sorted (h v hv)

end Checks

end Dsl41.Runner
