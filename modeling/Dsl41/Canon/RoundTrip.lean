import Dsl41.Canon.Encoding
import Mathlib.Data.List.Perm.Basic

/-!
# Canonical bytes name one JSON value

Two JSON values are the same when they differ in nothing but the order of their maps' entries. The
canonical text of a value spells the value with every map in key order, so the reader takes it
back, and two values with the same bytes are the same.
-/

namespace Dsl41.Canon

open Infra Infra.Json

variable {v w : Value} {path s : Str} {entries es es' : List (Str × Value)}
  {items : List Value}

/-! ## JSON values -/

namespace Value

mutual

/-- A value of the canonical grammar: its strings are scalar, its maps hold each key once. -/
def IsJson : Value → Prop
  | .none | .bool _ | .int _ => True
  | .str s => isScalarString s = true
  | .mapping entries => (entries.map Prod.fst).Nodup ∧ IsObject entries
  | .list items => IsArray items
  | .float .. | .datetime _ | .other _ => False

def IsObject : List (Str × Value) → Prop
  | [] => True
  | (key, value) :: entries => isScalarString key = true ∧ IsJson value ∧ IsObject entries

def IsArray : List Value → Prop
  | [] => True
  | item :: items => IsJson item ∧ IsArray items

end

mutual

/-- Equality up to the order of every map's entries. A boolean is no integer. -/
def Same : Value → Value → Prop
  | .none, .none => True
  | .bool a, .bool b => a = b
  | .int a, .int b => a = b
  | .str a, .str b => a = b
  | .mapping entries, .mapping entries' => ∃ es, es.Perm entries' ∧ SameObject entries es
  | .list items, .list items' => SameArray items items'
  | _, _ => False

def SameObject : List (Str × Value) → List (Str × Value) → Prop
  | [], [] => True
  | (key, value) :: entries, (key', value') :: entries' =>
    key = key' ∧ Same value value' ∧ SameObject entries entries'
  | _, _ => False

def SameArray : List Value → List Value → Prop
  | [], [] => True
  | item :: items, item' :: items' => Same item item' ∧ SameArray items items'
  | _, _ => False

end

mutual

/-- The value with every map in key order. -/
def sorted : Value → Value
  | .mapping entries => .mapping (sortKeys (sortedObject entries))
  | .list items => .list (sortedArray items)
  | v => v

def sortedObject : List (Str × Value) → List (Str × Value)
  | [] => []
  | (key, value) :: entries => (key, sorted value) :: sortedObject entries

def sortedArray : List Value → List Value
  | [] => []
  | item :: items => sorted item :: sortedArray items

end

/-- The top level carries no version but the one implemented. -/
def VersionOk : Value → Prop
  | .mapping entries => ∀ v, (versionKey, v) ∈ entries → v = .int ARTIFACT_FORMAT_VERSION
  | _ => True

end Value

/-- A value built from none, booleans, integers, scalar strings, lists and string-keyed maps. -/
def JsonValue := { v : Value // v.IsJson }

/-! ## Key order -/

section SortKeys

variable {υ ω : Type} {l l' : List (Str × υ)}

theorem sortKeys_perm : (sortKeys l).Perm l := List.perm_insertionSort _ l

theorem mem_sortKeys {e : Str × υ} : e ∈ sortKeys l ↔ e ∈ l := sortKeys_perm.mem_iff

theorem sortKeys_map (f : Str × υ → ω) :
    sortKeys (l.map fun e => (e.1, f e)) = (sortKeys l).map fun e => (e.1, f e) := by
  rw [sortKeys, sortKeys]
  refine (List.map_insertionSort _ _ (fun e : Str × υ => (e.1, f e)) l fun _ _ _ _ => ?_).symm
  exact Iff.rfl

theorem pairwise_sortKeys : (sortKeys l).Pairwise fun e e' => e.1 ≤ e'.1 := by
  have : Std.Total fun e e' : Str × υ => e.1 ≤ e'.1 := ⟨fun e e' => le_total e.1 e'.1⟩
  have : IsTrans (Str × υ) fun e e' => e.1 ≤ e'.1 := ⟨fun _ _ _ => le_trans⟩
  exact List.pairwise_insertionSort _ l

theorem sortKeys_sortKeys : sortKeys (sortKeys l) = sortKeys l :=
  pairwise_sortKeys.insertionSort_eq

/-- With each key once, key order leaves no choice. -/
theorem sortKeys_eq (hl : (l.map Prod.fst).Nodup) (h : l.Perm l') : sortKeys l = sortKeys l' := by
  have hperm : (sortKeys l).Perm (sortKeys l') := sortKeys_perm.trans (h.trans sortKeys_perm.symm)
  refine hperm.eq_of_pairwise ?_ pairwise_sortKeys pairwise_sortKeys
  intro e e' he he' hle hle'
  exact List.inj_on_of_nodup_map hl (mem_sortKeys.mp he)
    (h.mem_iff.mpr (mem_sortKeys.mp he')) (le_antisymm hle hle')

end SortKeys

namespace Value

theorem sortedObject_eq : ∀ {es : List (Str × Value)},
    sortedObject es = es.map fun e => (e.1, e.2.sorted)
  | [] => rfl
  | (key, value) :: es => by rw [sortedObject, sortedObject_eq, List.map_cons]

theorem sortedArray_eq : ∀ {items : List Value}, sortedArray items = items.map sorted
  | [] => rfl
  | item :: items => by rw [sortedArray, sortedArray_eq, List.map_cons]

theorem keys_sortedObject : (sortedObject es).map Prod.fst = es.map Prod.fst := by
  rw [sortedObject_eq, List.map_map]
  rfl

theorem sortKeys_sortedObject :
    sortKeys (sortedObject es) = (sortKeys es).map fun e => (e.1, e.2.sorted) := by
  rw [sortedObject_eq, sortKeys_map]

theorem isObject_iff : ∀ {es : List (Str × Value)},
    IsObject es ↔ ∀ e ∈ es, isScalarString e.1 = true ∧ e.2.IsJson
  | [] => by simp [IsObject]
  | (key, value) :: es => by simp [IsObject, isObject_iff, and_assoc]

/-! ## Sorting changes nothing but the order -/

theorem sameObject_map {f : Str × Value → Value} : ∀ {es : List (Str × Value)},
    (∀ e ∈ es, (f e).Same e.2) → SameObject (es.map fun e => (e.1, f e)) es
  | [], _ => trivial
  | e :: _, h => ⟨rfl, h e List.mem_cons_self,
      sameObject_map fun e' he' => h e' (List.mem_cons_of_mem _ he')⟩

mutual

theorem same_sorted : ∀ v : Value, v.IsJson → v.sorted.Same v
  | .none, _ => trivial
  | .bool _, _ => rfl
  | .int _, _ => rfl
  | .str _, _ => rfl
  | .mapping es, h => by
    rw [sorted, Same, sortKeys_sortedObject]
    exact ⟨sortKeys es, sortKeys_perm,
      sameObject_map fun e he => sameObject_sorted es h.2 e (mem_sortKeys.mp he)⟩
  | .list items, h => sameArray_sorted items h

theorem sameObject_sorted : ∀ es : List (Str × Value), IsObject es →
    ∀ e ∈ es, e.2.sorted.Same e.2
  | [], _, _, he => nomatch he
  | (key, value) :: es, h, e, he => by
    rcases List.mem_cons.mp he with rfl | he
    · exact same_sorted value h.2.1
    · exact sameObject_sorted es h.2.2 e he

theorem sameArray_sorted : ∀ items : List Value, IsArray items → SameArray (sortedArray items) items
  | [], _ => trivial
  | item :: items, h => ⟨same_sorted item h.1, sameArray_sorted items h.2⟩

end

mutual

theorem sorted_of_same : ∀ v w : Value, w.IsJson → v.Same w → v.sorted = w.sorted
  | .none, .none, _, _ => rfl
  | .bool _, .bool _, _, h => congrArg bool h
  | .int _, .int _, _, h => congrArg int h
  | .str _, .str _, _, h => congrArg str h
  | .mapping es, .mapping es', hw, ⟨fs, hperm, h⟩ => by
    have hfs : IsObject fs := isObject_iff.mpr fun e he => isObject_iff.mp hw.2 e (hperm.subset he)
    have hnodup : ((sortedObject fs).map Prod.fst).Nodup := by
      rw [keys_sortedObject]
      exact (hperm.map Prod.fst).nodup_iff.mpr hw.1
    have hperm' : (sortedObject fs).Perm (sortedObject es') := by
      rw [sortedObject_eq, sortedObject_eq]
      exact hperm.map _
    rw [sorted, sorted, sortedObject_of_same es fs hfs h, sortKeys_eq hnodup hperm']
  | .list items, .list items', hw, h => congrArg list (sortedArray_of_same items items' hw h)

theorem sortedObject_of_same : ∀ es fs : List (Str × Value), IsObject fs → SameObject es fs →
    sortedObject es = sortedObject fs
  | [], [], _, _ => rfl
  | (key, value) :: es, (_, value') :: fs, hfs, ⟨rfl, h, hs⟩ => by
    rw [sortedObject, sortedObject, sorted_of_same value value' hfs.2.1 h,
      sortedObject_of_same es fs hfs.2.2 hs]

theorem sortedArray_of_same : ∀ items items' : List Value, IsArray items' →
    SameArray items items' → sortedArray items = sortedArray items'
  | [], [], _, _ => rfl
  | item :: items, item' :: items', hi, ⟨h, hs⟩ => by
    rw [sortedArray, sortedArray, sorted_of_same item item' hi.1 h,
      sortedArray_of_same items items' hi.2 hs]

end

mutual

theorem same_of_sorted : ∀ v w : Value, v.IsJson → v.sorted = w.sorted → v.Same w
  | .none, w, _, h => by
    cases w <;> cases h
    trivial
  | .bool _, w, _, h => by
    cases w <;> cases h
    rfl
  | .int _, w, _, h => by
    cases w <;> cases h
    rfl
  | .str _, w, _, h => by
    cases w <;> cases h
    rfl
  | .mapping es, w, hv, h => by
    cases w with
    | mapping es' =>
      have hkeys : sortKeys (sortedObject es) = sortKeys (sortedObject es') := mapping.inj h
      have hperm : (sortedObject es).Perm (sortedObject es') :=
        sortKeys_perm.symm.trans (hkeys ▸ sortKeys_perm)
      have hes' : List.Forall₂ (fun a b : Str × Value => a = (b.1, b.2.sorted))
          (sortedObject es') es' := by
        rw [sortedObject_eq, List.forall₂_map_left_iff]
        exact List.forall₂_same.mpr fun _ _ => rfl
      obtain ⟨fs, hfs, hperm'⟩ := List.perm_comp_forall₂ hperm hes'
      exact ⟨fs, hperm', sameObject_of_sorted es fs hv.2 hfs⟩
    | _ => cases h
  | .list items, w, hv, h => by
    cases w with
    | list items' => exact sameArray_of_sorted items items' hv (list.inj h)
    | _ => cases h

theorem sameObject_of_sorted : ∀ es fs : List (Str × Value), IsObject es →
    List.Forall₂ (fun a b : Str × Value => a = (b.1, b.2.sorted)) (sortedObject es) fs →
    SameObject es fs
  | [], _, _, .nil => trivial
  | (key, value) :: es, (key', value') :: fs, hes, .cons h hs => by
    obtain ⟨hkey, hvalue⟩ := Prod.mk.inj h
    exact ⟨hkey, same_of_sorted value value' hes.2.1 hvalue,
      sameObject_of_sorted es fs hes.2.2 hs⟩

theorem sameArray_of_sorted : ∀ items items' : List Value, IsArray items →
    sortedArray items = sortedArray items' → SameArray items items'
  | [], [], _, _ => trivial
  | [], _ :: _, _, h => nomatch h
  | _ :: _, [], _, h => nomatch h
  | item :: items, item' :: items', hi, h => by
    obtain ⟨hitem, hitems⟩ := List.cons.inj h
    exact ⟨same_of_sorted item item' hi.1 hitem, sameArray_of_sorted items items' hi.2 hitems⟩

end

end Value

/-! ## Strings -/

theorem hex4_ok : ∀ n < 0xA0, ∃ a b c d, hex4 n = [a, b, c, d] ∧
    hexQuad (.scalar a) (.scalar b) (.scalar c) (.scalar d) = some n := by
  have hlength : ∀ n < 0xA0, (hex4 n).length = 4 := by decide +kernel
  have hall : ∀ n < 0xA0, hexQuad (.scalar ((hex4 n).getD 0 '0')) (.scalar ((hex4 n).getD 1 '0'))
      (.scalar ((hex4 n).getD 2 '0')) (.scalar ((hex4 n).getD 3 '0')) = some n := by decide +kernel
  intro n hn
  obtain ⟨a, b, c, d, hdigits⟩ := List.length_eq_four.mp (hlength n hn)
  have h := hall n hn
  rw [hdigits] at h
  exact ⟨a, b, c, d, hdigits, h⟩

/-- Every character is escaped to a text that spells it. -/
theorem spells_escape (c : Char) : SpellsCode (ofChars (escape c)) (.scalar c) := by
  unfold escape
  split
  · next short h =>
    obtain ⟨l₁, l₂, hl, -⟩ := List.lookup_eq_some_iff.mp h
    have hmem : (c.toNat, short) ∈ shortForms := by rw [hl]; simp
    simp only [shortForms, List.mem_cons, Prod.mk.injEq, List.not_mem_nil, or_false] at hmem
    rcases hmem with ⟨hc, rfl⟩ | ⟨hc, rfl⟩ | ⟨hc, rfl⟩ | ⟨hc, rfl⟩ | ⟨hc, rfl⟩ | ⟨hc, rfl⟩ | ⟨hc, rfl⟩
    · obtain rfl : c = '\x08' := Char.toNat_inj.mp hc
      exact .short rfl
    · obtain rfl : c = '\t' := Char.toNat_inj.mp hc
      exact .short rfl
    · obtain rfl : c = '\n' := Char.toNat_inj.mp hc
      exact .short rfl
    · obtain rfl : c = '\x0c' := Char.toNat_inj.mp hc
      exact .short rfl
    · obtain rfl : c = '\r' := Char.toNat_inj.mp hc
      exact .short rfl
    · obtain rfl : c = '"' := Char.toNat_inj.mp hc
      exact .short rfl
    · obtain rfl : c = '\\' := Char.toNat_inj.mp hc
      exact .short rfl
  · next hnone =>
    split
    · next hcontrol =>
      obtain ⟨a, b, d, e, hhex, hquad⟩ := hex4_ok c.toNat (by omega)
      have hcode : Code.ofNat c.toNat = .scalar c := by
        rw [Code.ofNat, dif_neg (by omega), Char.ofNat_toNat]
      rw [hhex, ← hcode]
      exact .unicode hquad (by omega)
    · next hplain =>
      refine .plain ?_ ?_ (by omega)
      · rintro rfl
        exact nomatch hnone
      · rintro rfl
        exact nomatch hnone

theorem spells_escapes : ∀ cs : List Char, SpellsString (ofChars (cs.flatMap escape)) (ofChars cs)
  | [] => .nil
  | c :: cs => by
    rw [List.flatMap_cons, ofChars_append, ofChars_cons]
    exact .cons (spells_escape c) (spells_escapes cs)

/-- A text of characters has no lone surrogate. -/
theorem isScalarString_ofChars (cs : List Char) : isScalarString (ofChars cs) = true := by
  rw [isScalarString, List.all_eq_true]
  intro c hc
  obtain ⟨d, -, rfl⟩ := List.mem_map.mp hc
  have hd := d.valid
  rw [Bool.not_eq_true', Bool.and_eq_false_iff, decide_eq_false_iff_not, decide_eq_false_iff_not,
    Code.ord]
  rcases hd with hd | hd
  · left
    simp only [Char.toNat, UInt32.toNat] at hd ⊢
    omega
  · right
    simp only [Char.toNat, UInt32.toNat] at hd ⊢
    omega

theorem ofChars_of_isScalarString (h : isScalarString s = true) :
    ofChars (s.filterMap Code.char?) = s := by
  induction s with
  | nil => rfl
  | cons c s ih =>
    rw [isScalarString, List.all_cons, Bool.and_eq_true] at h
    cases c with
    | scalar c => exact congrArg (Code.scalar c :: ·) (ih h.2)
    | surrogate n =>
      have hn := n.isLt
      rw [Bool.not_eq_true', Bool.and_eq_false_iff] at h
      rcases h.1 with hlow | hhigh
      · exact absurd (Nat.le_add_right _ _) (of_decide_eq_false hlow)
      · have hhigh := of_decide_eq_false hhigh
        rw [Code.ord] at hhigh
        omega

/-- A scalar string is written as the text of a string between quotes. -/
theorem encodeString_ok (path : Str) (h : isScalarString s = true) :
    ∃ t, encodeString s path = .ok ('"' :: (t ++ ['"'])) ∧ SpellsString (ofChars t) s := by
  refine ⟨_, by rw [encodeString, if_pos h], ?_⟩
  have hs := spells_escapes (s.filterMap Code.char?)
  rwa [ofChars_of_isScalarString h] at hs

/-! ## Values -/

/-- The text of a map's entry, as the encoder writes it. -/
def memberText (path : Str) (e : Str × Value) : Except CanonError (List Char) := do
  let name ← encodeString e.1 (keyPath path e.1)
  let text ← write (keyPath path e.1) e.2
  return name ++ ':' :: text

theorem writeObject_eq : ∀ {es : List (Str × Value)},
    writeObject path es = es.map fun e => (e.1, memberText path e)
  | [] => rfl
  | (key, value) :: es => by
    rw [writeObject, writeObject_eq]
    rfl

theorem mapM_congr {f g : Str × Value → Except CanonError (List Char)} :
    ∀ {es : List (Str × Value)}, (∀ e ∈ es, f e = g e) → es.mapM f = es.mapM g
  | [], _ => rfl
  | e :: es, h => by
    rw [List.mapM_cons, List.mapM_cons, h e List.mem_cons_self,
      mapM_congr fun x hx => h x (List.mem_cons_of_mem _ hx)]

theorem mapM_writeObject :
    (sortKeys (writeObject path es)).mapM Prod.snd = (sortKeys es).mapM (memberText path) := by
  rw [writeObject_eq, sortKeys_map, List.mapM_map]
  rfl

theorem duplicateKey?_eq_none : ∀ {seen : List Str} {es : List (Str × Value)},
    (es.map Prod.fst).Nodup → (∀ e ∈ es, e.1 ∉ seen) → duplicateKey? seen es = none
  | _, [], _, _ => rfl
  | seen, (key, value) :: es, hnodup, hseen => by
    obtain ⟨hkey, hnodup⟩ := List.nodup_cons.mp hnodup
    rw [duplicateKey?, if_neg (hseen _ List.mem_cons_self)]
    refine duplicateKey?_eq_none hnodup fun e he => ?_
    rw [List.mem_cons, not_or]
    exact ⟨fun h => hkey (List.mem_map.mpr ⟨e, he, h⟩), hseen e (List.mem_cons_of_mem _ he)⟩

theorem noDuplicateKeys_ok (h : (es.map Prod.fst).Nodup) : noDuplicateKeys es = .ok (.mapping es) := by
  rw [noDuplicateKeys, duplicateKey?_eq_none h fun _ _ => List.not_mem_nil]

theorem isScalarObject_iff : ∀ {es : List (Str × Value)},
    isScalarObject es = true ↔ ∀ e ∈ es, isScalarString e.1 = true ∧ isScalarJson e.2 = true
  | [] => by simp [isScalarObject]
  | (key, value) :: es => by simp [isScalarObject, isScalarObject_iff, and_assoc]

/-- The entries written one by one spell the members of an object. -/
theorem spells_members {f : Str × Value → Value} : ∀ {es : List (Str × Value)}, es ≠ [] →
    (∀ e ∈ es, isScalarString e.1 = true ∧
      ∃ t, write (keyPath path e.1) e.2 = .ok t ∧ Spells builder (ofChars t) (f e)) →
    ∃ ts, es.mapM (memberText path) = .ok ts ∧
      SpellsMembers builder (ofChars (join [','] ts)) (es.map fun e => (e.1, f e))
  | [], hne, _ => absurd rfl hne
  | e :: es, _, h => by
    obtain ⟨hkey, t, ht, hspells⟩ := h e List.mem_cons_self
    obtain ⟨u, hu, hname⟩ := encodeString_ok (keyPath path e.1) hkey
    have hmember : memberText path e = .ok ('"' :: (u ++ '"' :: ':' :: t)) := by
      rw [memberText, hu, ht]
      simp [bind, Except.bind, pure, Except.pure]
    cases es with
    | nil =>
      refine ⟨['"' :: (u ++ '"' :: ':' :: t)], by rw [List.mapM_cons, hmember]; rfl, ?_⟩
      simpa [join] using SpellsMembers.single hname hspells
    | cons e' es =>
      obtain ⟨ts, hts, hmembers⟩ := spells_members (List.cons_ne_nil e' es) fun x hx =>
        h x (List.mem_cons_of_mem _ hx)
      have hne : ts ≠ [] := by
        rintro rfl
        cases (mapM_inv hts)
      refine ⟨('"' :: (u ++ '"' :: ':' :: t)) :: ts, by rw [List.mapM_cons, hmember, hts]; rfl, ?_⟩
      rw [join_cons hne]
      simpa using SpellsMembers.cons hname hspells hmembers

mutual

/-- The text of a JSON value spells the value in key order. -/
theorem write_spells : ∀ (path : Str) (v : Value), v.IsJson →
    ∃ t, write path v = .ok t ∧ Spells builder (ofChars t) v.sorted
  | _, .none, _ => ⟨_, rfl, .null⟩
  | _, .bool true, _ => ⟨_, rfl, .isTrue⟩
  | _, .bool false, _ => ⟨_, rfl, .isFalse⟩
  | _, .int i, _ => ⟨_, rfl, .int i⟩
  | path, .str s, h => by
    obtain ⟨t, ht, hs⟩ := encodeString_ok path h
    refine ⟨_, ht, ?_⟩
    rw [ofChars_cons, ofChars_append]
    exact .str hs
  | path, .mapping es, h => by
    have hes := writeEntries_spells path es h.2
    rw [write, mapM_writeObject, Value.sorted, Value.sortKeys_sortedObject]
    by_cases hne : sortKeys es = []
    · rw [hne]
      exact ⟨_, rfl, .bare rfl⟩
    · obtain ⟨ts, hts, hmembers⟩ := spells_members hne fun e he =>
        ⟨(Value.isObject_iff.mp h.2 e (mem_sortKeys.mp he)).1, hes e (mem_sortKeys.mp he)⟩
      refine ⟨_, by rw [hts]; rfl, ?_⟩
      rw [ofChars_cons, ofChars_append]
      refine .object hmembers (noDuplicateKeys_ok ?_)
      rw [List.map_map]
      exact (sortKeys_perm.map Prod.fst).nodup_iff.mpr h.1
  | path, .list [], h => ⟨_, rfl, .empty⟩
  | path, .list (item :: items), h => by
    obtain ⟨ts, hts, hitems⟩ := writeArray_spells path 0 (item :: items) (List.cons_ne_nil _ _) h
    refine ⟨_, by rw [write, hts]; rfl, ?_⟩
    rw [ofChars_cons, ofChars_append]
    exact .list hitems

theorem writeEntries_spells : ∀ (path : Str) (es : List (Str × Value)), Value.IsObject es →
    ∀ e ∈ es, ∃ t, write (keyPath path e.1) e.2 = .ok t ∧ Spells builder (ofChars t) e.2.sorted
  | _, [], _, _, he => nomatch he
  | path, (key, value) :: es, h, e, he => by
    rcases List.mem_cons.mp he with rfl | he
    · exact write_spells (keyPath path key) value h.2.1
    · exact writeEntries_spells path es h.2.2 e he

theorem writeArray_spells : ∀ (path : Str) (position : Nat) (items : List Value), items ≠ [] →
    Value.IsArray items → ∃ ts, writeArray path position items = .ok ts ∧
      SpellsItems builder (ofChars (join [','] ts)) (Value.sortedArray items)
  | _, _, [], hne, _ => absurd rfl hne
  | path, position, item :: items, _, h => by
    obtain ⟨t, ht, hspells⟩ := write_spells (itemPath path position) item h.1
    cases items with
    | nil =>
      refine ⟨[t], by rw [writeArray, ht]; rfl, ?_⟩
      exact .single hspells
    | cons item' items =>
      obtain ⟨ts, hts, hitems⟩ := writeArray_spells path (position + 1) (item' :: items)
        (List.cons_ne_nil _ _) h.2
      refine ⟨t :: ts, by rw [writeArray, ht, hts]; rfl, ?_⟩
      have hne : ts ≠ [] := by
        rintro rfl
        obtain ⟨c, u, hnil, -⟩ := hitems.head
        cases hnil
      rw [join_cons hne, Value.sortedArray]
      simpa using SpellsItems.cons hspells hitems

end

mutual

/-- The encoder sorts the maps itself. -/
theorem write_sorted : ∀ (path : Str) (v : Value), write path v.sorted = write path v
  | _, .none => rfl
  | _, .bool _ => rfl
  | _, .int _ => rfl
  | _, .float .. => rfl
  | _, .str _ => rfl
  | _, .datetime _ => rfl
  | _, .other _ => rfl
  | path, .mapping es => by
    have hes : (sortKeys es).mapM (memberText path ∘ fun e => (e.1, e.2.sorted)) =
        (sortKeys es).mapM (memberText path) :=
      mapM_congr fun e he => memberText_sorted path es e (mem_sortKeys.mp he)
    rw [Value.sorted, write, write, mapM_writeObject, mapM_writeObject, sortKeys_sortKeys,
      Value.sortKeys_sortedObject, List.mapM_map, hes]
  | path, .list items => by rw [Value.sorted, write, write, writeArray_sorted path 0 items]

theorem memberText_sorted : ∀ (path : Str) (es : List (Str × Value)), ∀ e ∈ es,
    memberText path (e.1, e.2.sorted) = memberText path e
  | _, [], _, he => nomatch he
  | path, (key, value) :: es, e, he => by
    rcases List.mem_cons.mp he with rfl | he
    · rw [memberText, memberText, write_sorted (keyPath path key) value]
    · exact memberText_sorted path es e he

theorem writeArray_sorted : ∀ (path : Str) (position : Nat) (items : List Value),
    writeArray path position (Value.sortedArray items) = writeArray path position items
  | _, _, [] => rfl
  | path, position, item :: items => by
    rw [Value.sortedArray, writeArray, writeArray, write_sorted (itemPath path position) item,
      writeArray_sorted path (position + 1) items]

end

namespace Value

mutual

/-- In key order a JSON value is still one. -/
theorem isJson_sorted : ∀ v : Value, v.IsJson → v.sorted.IsJson
  | .none, _ => trivial
  | .bool _, _ => trivial
  | .int _, _ => trivial
  | .str _, h => h
  | .mapping es, h => by
    have hkeys : ((sortKeys (sortedObject es)).map Prod.fst).Perm (es.map Prod.fst) :=
      (sortKeys_perm.map Prod.fst).trans (.of_eq keys_sortedObject)
    refine ⟨hkeys.nodup_iff.mpr h.1, isObject_iff.mpr fun e he => ?_⟩
    exact isObject_sorted es h.2 e (mem_sortKeys.mp he)
  | .list items, h => isArray_sorted items h

theorem isObject_sorted : ∀ es : List (Str × Value), IsObject es →
    ∀ e ∈ sortedObject es, isScalarString e.1 = true ∧ e.2.IsJson
  | [], _, _, he => nomatch he
  | (key, value) :: es, h, e, he => by
    rcases List.mem_cons.mp he with rfl | he
    · exact ⟨h.1, isJson_sorted value h.2.1⟩
    · exact isObject_sorted es h.2.2 e he

theorem isArray_sorted : ∀ items : List Value, IsArray items → IsArray (sortedArray items)
  | [], _ => trivial
  | item :: items, h => ⟨isJson_sorted item h.1, isArray_sorted items h.2⟩

end

/-! ## Instants -/

mutual

/-- The value with the text of every instant in its place. -/
def written : Value → Value
  | .datetime d => .str (ofChars d.isoformat)
  | .mapping entries => .mapping (writtenObject entries)
  | .list items => .list (writtenArray items)
  | v => v

def writtenObject : List (Str × Value) → List (Str × Value)
  | [] => []
  | (key, value) :: entries => (key, written value) :: writtenObject entries

def writtenArray : List Value → List Value
  | [] => []
  | item :: items => written item :: writtenArray items

end

end Value

mutual

/-- The encoder writes an instant as its text. -/
theorem write_written : ∀ (path : Str) (v : Value), write path v.written = write path v
  | _, .none => rfl
  | _, .bool _ => rfl
  | _, .int _ => rfl
  | _, .float .. => rfl
  | _, .str _ => rfl
  | _, .datetime _ => rfl
  | _, .other _ => rfl
  | path, .mapping es => by rw [Value.written, write, write, writeObject_written path es]
  | path, .list items => by rw [Value.written, write, write, writeArray_written path 0 items]

theorem writeObject_written : ∀ (path : Str) (es : List (Str × Value)),
    writeObject path (Value.writtenObject es) = writeObject path es
  | _, [] => rfl
  | path, (key, value) :: es => by
    rw [Value.writtenObject, writeObject, writeObject, write_written (keyPath path key) value,
      writeObject_written path es]

theorem writeArray_written : ∀ (path : Str) (position : Nat) (items : List Value),
    writeArray path position (Value.writtenArray items) = writeArray path position items
  | _, _, [] => rfl
  | path, position, item :: items => by
    rw [Value.writtenArray, writeArray, writeArray, write_written (itemPath path position) item,
      writeArray_written path (position + 1) items]

end

mutual

/-- A JSON value has no instants. -/
theorem Value.written_of_isJson : ∀ v : Value, v.IsJson → v.written = v
  | .none, _ => rfl
  | .bool _, _ => rfl
  | .int _, _ => rfl
  | .str _, _ => rfl
  | .mapping es, h => by rw [Value.written, Value.writtenObject_of_isJson es h.2]
  | .list items, h => by rw [Value.written, Value.writtenArray_of_isJson items h]

theorem Value.writtenObject_of_isJson : ∀ es : List (Str × Value), Value.IsObject es →
    Value.writtenObject es = es
  | [], _ => rfl
  | (key, value) :: es, h => by
    rw [Value.writtenObject, Value.written_of_isJson value h.2.1,
      Value.writtenObject_of_isJson es h.2.2]

theorem Value.writtenArray_of_isJson : ∀ items : List Value, Value.IsArray items →
    Value.writtenArray items = items
  | [], _ => rfl
  | item :: items, h => by
    rw [Value.writtenArray, Value.written_of_isJson item h.1, Value.writtenArray_of_isJson items h.2]

end

/-! ## Decoding -/

mutual

theorem isScalarJson_sorted : ∀ v : Value, v.IsJson → isScalarJson v.sorted = true
  | .none, _ => rfl
  | .bool _, _ => rfl
  | .int _, _ => rfl
  | .str _, h => h
  | .mapping es, h => by
    rw [Value.sorted, isScalarJson, isScalarObject_iff, Value.sortKeys_sortedObject]
    intro e he
    obtain ⟨x, hx, rfl⟩ := List.mem_map.mp he
    exact isScalarObject_sorted es h.2 x (mem_sortKeys.mp hx)
  | .list items, h => isScalarArray_sorted items h

theorem isScalarObject_sorted : ∀ es : List (Str × Value), Value.IsObject es →
    ∀ e ∈ es, isScalarString e.1 = true ∧ isScalarJson e.2.sorted = true
  | [], _, _, he => nomatch he
  | (key, value) :: es, h, e, he => by
    rcases List.mem_cons.mp he with rfl | he
    · exact ⟨h.1, isScalarJson_sorted value h.2.1⟩
    · exact isScalarObject_sorted es h.2.2 e he

theorem isScalarArray_sorted : ∀ items : List Value, Value.IsArray items →
    isScalarArray (Value.sortedArray items) = true
  | [], _ => rfl
  | item :: items, h => by
    rw [Value.sortedArray, isScalarArray, isScalarJson_sorted item h.1,
      isScalarArray_sorted items h.2, Bool.and_self]

end

theorem checkArtifactVersion_sorted (h : v.VersionOk) : checkArtifactVersion v.sorted = .ok () := by
  cases v with
  | mapping es =>
    rw [Value.sorted, Value.sortKeys_sortedObject, checkArtifactVersion]
    -- the entry that is found is the value's own, in key order
    have hfound : ∀ {key version}, ((sortKeys es).map fun e => (e.1, e.2.sorted)).find?
        (fun e => e.1 = versionKey) = some (key, version) → version = .int ARTIFACT_FORMAT_VERSION := by
      intro key version hfind
      obtain ⟨x, hx, hxe⟩ := List.mem_map.mp (List.mem_of_find?_eq_some hfind)
      obtain ⟨rfl, rfl⟩ := Prod.mk.inj hxe
      have hkey : x.1 = versionKey := by simpa using List.find?_some hfind
      have hx : (x.1, x.2) ∈ es := mem_sortKeys.mp hx
      rw [h x.2 (hkey ▸ hx)]
      rfl
    split
    · rfl
    · next hfind =>
      cases hfound hfind
      rfl
    · next hne hfind => exact absurd (hfound hfind) (hne _)
  | _ => rfl

/-- The canonical bytes of a value are decoded to the value in key order. -/
theorem decode_canonicalBytes (hv : v.IsJson) (hversion : v.VersionOk) :
    ∃ bytes, canonicalBytes v = .ok bytes ∧ decode (.inl bytes) = .ok v.sorted := by
  obtain ⟨t, ht, hspells⟩ := write_spells (ofChars ['$']) v hv
  refine ⟨(String.ofList t).toByteArray, by rw [canonicalBytes, ht]; rfl, ?_⟩
  rw [decode]
  simp only [String.toByteArray_ofList, List.utf8Decode?_utf8Encode, bind, Except.bind,
    loads_spells hspells, isScalarJson_sorted v hv, checkArtifactVersion_sorted hversion]
  rfl

theorem canonicalBytes_written (v : Value) : canonicalBytes v.written = canonicalBytes v := by
  rw [canonicalBytes, write_written, canonicalBytes]

theorem canonicalBytes_sorted (v : Value) : canonicalBytes v.sorted = canonicalBytes v := by
  rw [canonicalBytes, write_sorted, canonicalBytes]

/-- A document with its version and a map whose keys are out of order. -/
def document : JsonValue where
  val := .mapping [(versionKey, .int 1),
    (ofChars "jobs".toList, .mapping [(ofChars ['b'], .bool true), (ofChars ['a'], .int 1)])]
  property := by
    simp only [Value.IsJson, Value.IsObject]
    decide +kernel

end Dsl41.Canon
