import Mathlib.Data.List.Sort
import Dsl41.Infra.Dict
import Dsl41.Infra.Json.Grammar

/-!
# `json.dumps` with sorted keys

The text in the default separators with every character past ASCII escaped. `dumps_inj` says that
the text keeps the value: what comes back is the same at every place, whatever follows.
-/

namespace Dsl41.Infra.Json

/-- What `json.dumps` is given. -/
inductive Datum
  | null
  | int (i : Int)
  | str (s : String)
  | list (items : List Datum)
  | object (members : List (String × Datum))

/-! ## The writer -/

/-- `\uXXXX`. -/
def unicodeEscape (n : Nat) : List Char :=
  ['\\', 'u', Nat.digitChar (n / 4096 % 16), Nat.digitChar (n / 256 % 16), Nat.digitChar (n / 16 % 16),
    Nat.digitChar (n % 16)]

/-- `ESCAPE_DCT`, after the backslash. -/
def escapeForms : List (Char × Char) :=
  [('\\', '\\'), ('"', '"'), ('\x08', 'b'), ('\x0c', 'f'), ('\n', 'n'), ('\r', 'r'), ('\t', 't')]

/-- `py_encode_basestring_ascii`, of one character. -/
def asciiEscape (c : Char) : List Char :=
  match escapeForms.lookup c with
  | some e => ['\\', e]
  | none =>
    if 0x20 ≤ c.toNat ∧ c.toNat ≤ 0x7E then [c]
    else if c.toNat < 0x10000 then unicodeEscape c.toNat
    else unicodeEscape (0xD800 + (c.toNat - 0x10000) / 0x400) ++ unicodeEscape (0xDC00 + (c.toNat - 0x10000) % 0x400)

def quoted (s : String) : List Char := '"' :: (s.toList.flatMap asciiEscape ++ ['"'])

mutual

/-- `json.dumps`. -/
def dumps : Datum → List Char
  | .null => "null".toList
  | .int i => intText i
  | .str s => quoted s
  | .list [] => ['[', ']']
  | .list (item :: items) => '[' :: (dumps item ++ dumpsItems items)
  | .object [] => ['\x7b', '\x7d']
  | .object ((key, value) :: members) => '\x7b' :: (quoted key ++ ':' :: ' ' :: (dumps value ++ dumpsMembers members))

/-- The items after the first, with the closing bracket. -/
def dumpsItems : List Datum → List Char
  | [] => [']']
  | item :: items => ',' :: ' ' :: (dumps item ++ dumpsItems items)

def dumpsMembers : List (String × Datum) → List Char
  | [] => ['\x7d']
  | (key, value) :: members =>
    ',' :: ' ' :: (quoted key ++ ':' :: ' ' :: (dumps value ++ dumpsMembers members))

end

mutual

/-- `sort_keys=True`. -/
def sortKeys : Datum → Datum
  | .list items => .list (sortKeysItems items)
  | .object members => .object ((sortKeysMembers members).insertionSort fun m m' => m.1 ≤ m'.1)
  | .null => .null
  | .int i => .int i
  | .str s => .str s

def sortKeysItems : List Datum → List Datum
  | [] => []
  | item :: items => sortKeys item :: sortKeysItems items

def sortKeysMembers : List (String × Datum) → List (String × Datum)
  | [] => []
  | (key, value) :: members => (key, sortKeys value) :: sortKeysMembers members

end

/-! ## Strings -/

theorem hexQuad_digits {n : Nat} (h : n < 0x10000) :
    hexQuad (.scalar (Nat.digitChar (n / 4096 % 16))) (.scalar (Nat.digitChar (n / 256 % 16)))
      (.scalar (Nat.digitChar (n / 16 % 16))) (.scalar (Nat.digitChar (n % 16))) = some n := by
  have hdigit : ∀ d < 16, hexValue (.scalar (Nat.digitChar d)) = some d := by decide
  have hmod : ∀ k : Nat, k % 16 < 16 := fun k => Nat.mod_lt k (by decide)
  simp only [hexQuad, hdigit _ (hmod _), Option.bind_eq_bind, Option.bind_some, Option.pure_def, Option.some.injEq]
  omega

/-- Two escapes that make a surrogate pair. -/
theorem scanUnicode_pair {w x y z w' x' y' z' : Code} {high low : Nat} {rest : Str} (h : hexQuad w x y z = some high)
    (h' : hexQuad w' x' y' z' = some low) (hhigh : 0xD800 ≤ high ∧ high < 0xDC00) (hlow : 0xDC00 ≤ low ∧ low < 0xE000) :
    scanUnicode (w :: x :: y :: z :: .scalar '\\' :: .scalar 'u' :: w' :: x' :: y' :: z' :: rest) =
      some (.ofNat (0x10000 + (high - 0xD800) * 0x400 + (low - 0xDC00)), rest) := by
  simp only [scanUnicode, h, h']
  exact if_pos ⟨hhigh.1, hhigh.2, hlow.1, hlow.2⟩

/-- A character is no surrogate. -/
theorem not_surrogate (c : Char) : ¬(0xD800 ≤ c.toNat ∧ c.toNat < 0xE000) := by
  have hc := c.valid
  simp only [Char.toNat, UInt32.toNat] at hc ⊢
  rcases hc with hc | hc
  · simp only [UInt32.toNat] at hc
    omega
  · simp only [UInt32.toNat] at hc
    omega

theorem ofNat_toNat (c : Char) : Code.ofNat c.toNat = .scalar c := by
  rw [Code.ofNat, dif_neg (not_surrogate c), Char.ofNat_toNat]

theorem ofChars_unicodeEscape (n : Nat) (rest : Str) :
    ofChars (unicodeEscape n) ++ rest = .scalar '\\' :: .scalar 'u' :: .scalar (Nat.digitChar (n / 4096 % 16)) ::
      .scalar (Nat.digitChar (n / 256 % 16)) :: .scalar (Nat.digitChar (n / 16 % 16)) ::
      .scalar (Nat.digitChar (n % 16)) :: rest := rfl

/-- The reader takes an escaped character back. -/
theorem scanCode_asciiEscape (c : Char) (rest : List Char) :
    scanCode (ofChars (asciiEscape c ++ rest)) = some (.scalar c, ofChars rest) := by
  rw [ofChars_append]
  unfold asciiEscape
  split
  · next e he =>
    obtain ⟨l₁, l₂, hl, -⟩ := List.lookup_eq_some_iff.mp he
    have hmem : (c, e) ∈ escapeForms := by rw [hl]; simp
    have hback : ∀ p ∈ escapeForms, shortEscapes.lookup p.2 = some p.1 := by decide
    exact scanCode_ok (.short (hback (c, e) hmem))
  · next hnone =>
    split
    · next hplain =>
      refine scanCode_ok (.plain ?_ ?_ hplain.1)
      · rintro rfl
        exact nomatch hnone
      · rintro rfl
        exact nomatch hnone
    · have hno := not_surrogate c
      split
      · next hbmp =>
        rw [ofChars_unicodeEscape, scanCode, scanUnicode_ok (hexQuad_digits hbmp) (fun h => hno ⟨h.1, by omega⟩),
          ofNat_toNat]
      · next hlarge =>
        have hmax : c.toNat < 0x110000 := by
          have hc := c.valid
          simp only [Char.toNat, UInt32.toNat] at hc ⊢
          rcases hc with hc | hc
          · simp only [UInt32.toNat] at hc
            omega
          · simp only [UInt32.toNat] at hc
            omega
        have hhigh : hexQuad _ _ _ _ = some (0xD800 + (c.toNat - 0x10000) / 0x400) := hexQuad_digits (by omega)
        have hlow : hexQuad _ _ _ _ = some (0xDC00 + (c.toNat - 0x10000) % 0x400) := hexQuad_digits (by omega)
        have hsum : 0x10000 + (0xD800 + (c.toNat - 0x10000) / 0x400 - 0xD800) * 0x400 +
            (0xDC00 + (c.toNat - 0x10000) % 0x400 - 0xDC00) = c.toNat := by omega
        rw [ofChars_append, List.append_assoc, ofChars_unicodeEscape, ofChars_unicodeEscape, scanCode,
          scanUnicode_pair hhigh hlow ⟨by omega, by omega⟩ ⟨by omega, by omega⟩, hsum, ofNat_toNat]

/-- No escaped character is the closing quote. -/
theorem asciiEscape_head (c : Char) : ∃ d t, asciiEscape c = d :: t ∧ d ≠ '"' := by
  unfold asciiEscape
  split
  · exact ⟨_, _, rfl, by decide⟩
  · next hnone =>
    split
    · refine ⟨c, [], rfl, ?_⟩
      rintro rfl
      exact nomatch hnone
    · split
      · exact ⟨_, _, rfl, by decide⟩
      · exact ⟨_, _, rfl, by decide⟩

theorem ofChars_injective : Function.Injective ofChars := List.map_injective_iff.mpr fun _ _ => Code.scalar.inj

/-- The text of a string ends at its closing quote. -/
theorem escapes_inj : ∀ {cs ds s t : List Char},
    cs.flatMap asciiEscape ++ '"' :: s = ds.flatMap asciiEscape ++ '"' :: t → cs = ds ∧ s = t
  | [], [], s, t, h => ⟨rfl, (List.cons.inj h).2⟩
  | [], d :: ds, s, t, h => by
    obtain ⟨e, u, he, hne⟩ := asciiEscape_head d
    rw [List.flatMap_cons, he] at h
    exact absurd (List.cons.inj h).1.symm hne
  | c :: cs, [], s, t, h => by
    obtain ⟨e, u, he, hne⟩ := asciiEscape_head c
    rw [List.flatMap_cons, he] at h
    exact absurd (List.cons.inj h).1 hne
  | c :: cs, d :: ds, s, t, h => by
    rw [List.flatMap_cons, List.flatMap_cons, List.append_assoc, List.append_assoc] at h
    have hscan := congrArg (fun l => scanCode (ofChars l)) h
    simp only [scanCode_asciiEscape, Option.some.injEq, Prod.mk.injEq, Code.scalar.injEq] at hscan
    obtain ⟨rfl, hrest⟩ := hscan
    obtain ⟨rfl, rfl⟩ := escapes_inj (ofChars_injective hrest)
    exact ⟨rfl, rfl⟩

theorem quoted_inj {a b : String} {s t : List Char} (h : quoted a ++ s = quoted b ++ t) : a = b ∧ s = t := by
  simp only [quoted, List.cons_append, List.append_assoc, List.nil_append, List.cons.injEq, true_and] at h
  obtain ⟨hchars, hrest⟩ := escapes_inj h
  exact ⟨String.toList_injective hchars, hrest⟩

/-! ## Numbers -/

/-- What does not continue a number. -/
def NoDigit (s : List Char) : Prop := ∀ c ∈ s.head?, c.isDigit = false

theorem natText_isDigit {n : Nat} {c : Char} (h : c ∈ natText n) : c.isDigit = true := by
  have hcode := isDigit_natText (n := n) (c := .scalar c) (List.mem_map_of_mem h)
  exact hcode

theorem natText_inj {n m : Nat} {s t : List Char} (hs : NoDigit s) (ht : NoDigit t)
    (h : natText n ++ s = natText m ++ t) : n = m ∧ s = t := by
  have hsplit : ∀ (k : Nat) (u : List Char), NoDigit u →
      (natText k ++ u).takeWhile Char.isDigit = natText k ∧ (natText k ++ u).dropWhile Char.isDigit = u := by
    intro k u hu
    have htake : u.takeWhile Char.isDigit = [] ∧ u.dropWhile Char.isDigit = u := by
      cases u with
      | nil => exact ⟨rfl, rfl⟩
      | cons c u =>
        have hc := hu c rfl
        simp [hc]
    constructor
    · rw [List.takeWhile_append_of_pos fun c hc => natText_isDigit hc, htake.1, List.append_nil]
    · rw [List.dropWhile_append_of_pos fun c hc => natText_isDigit hc, htake.2]
  have htext : natText n = natText m := by
    rw [← (hsplit n s hs).1, h, (hsplit m t ht).1]
  refine ⟨?_, ?_⟩
  · rw [← natOfDigits_natText (n := n), htext, natOfDigits_natText]
  · rw [← (hsplit n s hs).2, h, (hsplit m t ht).2]

theorem intText_inj {i j : Int} {s t : List Char} (hs : NoDigit s) (ht : NoDigit t)
    (h : intText i ++ s = intText j ++ t) : i = j ∧ s = t := by
  have hhead : ∀ (n : Nat) (u v : List Char), natText n ++ u ≠ '-' :: v := by
    intro n u v heq
    obtain ⟨c, cs, hcs, hc⟩ := natText_cons n
    rw [hcs] at heq
    rw [(List.cons.inj heq).1] at hc
    cases hc
  unfold intText at h
  split at h
  · next hi =>
    split at h
    · next hj =>
      obtain ⟨habs, hrest⟩ := natText_inj hs ht (List.cons.inj h).2
      exact ⟨by omega, hrest⟩
    · exact absurd h.symm (hhead _ _ _)
  · next hi =>
    split at h
    · exact absurd h (hhead _ _ _)
    · next hj =>
      obtain ⟨habs, hrest⟩ := natText_inj hs ht h
      exact ⟨by omega, hrest⟩

/-! ## Values -/

/-- The kind of value a text begins with, five for none. -/
def mark (c : Char) : Nat :=
  if c = 'n' then 0
  else if c = '"' then 1
  else if c = '[' then 2
  else if c = '\x7b' then 3
  else if c = '-' ∨ c.isDigit then 4
  else 5

def kind : Datum → Nat
  | .null => 0
  | .str _ => 1
  | .list _ => 2
  | .object _ => 3
  | .int _ => 4

theorem dumps_head (v : Datum) : ∃ c cs, dumps v = c :: cs ∧ mark c = kind v := by
  match v with
  | .null => exact ⟨'n', _, rfl, rfl⟩
  | .str s => exact ⟨'"', _, rfl, rfl⟩
  | .list [] => exact ⟨'[', _, rfl, rfl⟩
  | .list (_ :: _) => exact ⟨'[', _, rfl, rfl⟩
  | .object [] => exact ⟨'\x7b', _, rfl, rfl⟩
  | .object (_ :: _) => exact ⟨'\x7b', _, rfl, rfl⟩
  | .int i =>
    obtain ⟨c, cs, heq, hc⟩ := intText_cons i
    refine ⟨c, cs, heq, ?_⟩
    rcases hc with rfl | hc
    · rfl
    · have hne : ∀ d : Char, d.isDigit = false → c ≠ d := fun d hd => ne_of_isDigit hc hd
      rw [mark, if_neg (hne _ rfl), if_neg (hne _ rfl), if_neg (hne _ rfl), if_neg (hne _ rfl), if_pos (.inr hc)]
      rfl

theorem kind_eq {v w : Datum} {s t : List Char} (h : dumps v ++ s = dumps w ++ t) : kind v = kind w := by
  obtain ⟨c, cs, heq, hc⟩ := dumps_head v
  obtain ⟨d, ds, heq', hd⟩ := dumps_head w
  rw [heq, heq'] at h
  rw [← hc, ← hd, (List.cons.inj h).1]

/-- No value begins with a closing bracket. -/
theorem dumps_ne_close {v : Datum} {s t : List Char} : dumps v ++ s ≠ ']' :: t := by
  intro h
  obtain ⟨c, cs, heq, hc⟩ := dumps_head v
  rw [heq] at h
  rw [(List.cons.inj h).1] at hc
  cases v <;> exact nomatch hc

theorem noDigit_items (l : List Datum) (s : List Char) : NoDigit (dumpsItems l ++ s) := by
  intro c hc
  cases l with
  | nil => exact Option.some.inj hc ▸ rfl
  | cons => exact Option.some.inj hc ▸ rfl

theorem noDigit_members (l : List (String × Datum)) (s : List Char) : NoDigit (dumpsMembers l ++ s) := by
  intro c hc
  cases l with
  | nil => exact Option.some.inj hc ▸ rfl
  | cons => exact Option.some.inj hc ▸ rfl

mutual

/-- A text gives back its value and where it ends. -/
theorem dumps_inj : ∀ (v w : Datum) {s t : List Char}, NoDigit s → NoDigit t → dumps v ++ s = dumps w ++ t →
    v = w ∧ s = t
  | .null, w, s, t, hs, ht, h => by
    have hkind := kind_eq h
    cases w with
    | null => exact ⟨rfl, List.append_cancel_left h⟩
    | _ => cases hkind
  | .int i, w, s, t, hs, ht, h => by
    have hkind := kind_eq h
    cases w with
    | int j => exact (intText_inj hs ht h).imp_left (congrArg Datum.int)
    | _ => cases hkind
  | .str a, w, s, t, hs, ht, h => by
    have hkind := kind_eq h
    cases w with
    | str b => exact (quoted_inj h).imp_left (congrArg Datum.str)
    | _ => cases hkind
  | .list l, w, s, t, hs, ht, h => by
    have hkind := kind_eq h
    cases w with
    | list m => exact (list_inj l m h).imp_left (congrArg Datum.list)
    | _ => cases hkind
  | .object l, w, s, t, hs, ht, h => by
    have hkind := kind_eq h
    cases w with
    | object m => exact (object_inj l m h).imp_left (congrArg Datum.object)
    | _ => cases hkind

theorem list_inj : ∀ (l m : List Datum) {s t : List Char}, dumps (.list l) ++ s = dumps (.list m) ++ t →
    l = m ∧ s = t
  | [], [], s, t, h => ⟨rfl, List.append_cancel_left h⟩
  | [], w :: m, s, t, h => by
    simp only [dumps, List.cons_append, List.append_assoc, List.cons.injEq, true_and] at h
    exact absurd h.symm dumps_ne_close
  | v :: l, [], s, t, h => by
    simp only [dumps, List.cons_append, List.append_assoc, List.cons.injEq, true_and] at h
    exact absurd h dumps_ne_close
  | v :: l, w :: m, s, t, h => by
    simp only [dumps, List.cons_append, List.append_assoc, List.cons.injEq, true_and] at h
    obtain ⟨rfl, hrest⟩ := dumps_inj v w (noDigit_items l s) (noDigit_items m t) h
    obtain ⟨rfl, rfl⟩ := items_inj l m hrest
    exact ⟨rfl, rfl⟩

theorem items_inj : ∀ (l m : List Datum) {s t : List Char}, dumpsItems l ++ s = dumpsItems m ++ t → l = m ∧ s = t
  | [], [], s, t, h => ⟨rfl, List.append_cancel_left h⟩
  | [], w :: m, s, t, h => nomatch (List.cons.inj h).1
  | v :: l, [], s, t, h => nomatch (List.cons.inj h).1
  | v :: l, w :: m, s, t, h => by
    simp only [dumpsItems, List.cons_append, List.append_assoc, List.cons.injEq, true_and] at h
    obtain ⟨rfl, hrest⟩ := dumps_inj v w (noDigit_items l s) (noDigit_items m t) h
    obtain ⟨rfl, rfl⟩ := items_inj l m hrest
    exact ⟨rfl, rfl⟩

theorem object_inj : ∀ (l m : List (String × Datum)) {s t : List Char},
    dumps (.object l) ++ s = dumps (.object m) ++ t → l = m ∧ s = t
  | [], [], s, t, h => ⟨rfl, List.append_cancel_left h⟩
  | [], (key, w) :: m, s, t, h => nomatch (List.cons.inj (List.cons.inj h).2).1
  | (key, v) :: l, [], s, t, h => nomatch (List.cons.inj (List.cons.inj h).2).1
  | (key, v) :: l, (key', w) :: m, s, t, h => by
    simp only [dumps, List.cons_append, List.append_assoc, List.cons.injEq, true_and] at h
    obtain ⟨rfl, hvalue⟩ := quoted_inj h
    simp only [List.cons.injEq, true_and] at hvalue
    obtain ⟨rfl, hrest⟩ := dumps_inj v w (noDigit_members l s) (noDigit_members m t) hvalue
    obtain ⟨rfl, rfl⟩ := members_inj l m hrest
    exact ⟨rfl, rfl⟩

theorem members_inj : ∀ (l m : List (String × Datum)) {s t : List Char},
    dumpsMembers l ++ s = dumpsMembers m ++ t → l = m ∧ s = t
  | [], [], s, t, h => ⟨rfl, List.append_cancel_left h⟩
  | [], (key, w) :: m, s, t, h => nomatch (List.cons.inj h).1
  | (key, v) :: l, [], s, t, h => nomatch (List.cons.inj h).1
  | (key, v) :: l, (key', w) :: m, s, t, h => by
    simp only [dumpsMembers, List.cons_append, List.append_assoc, List.cons.injEq, true_and] at h
    obtain ⟨rfl, hvalue⟩ := quoted_inj h
    simp only [List.cons.injEq, true_and] at hvalue
    obtain ⟨rfl, hrest⟩ := dumps_inj v w (noDigit_members l s) (noDigit_members m t) hvalue
    obtain ⟨rfl, rfl⟩ := members_inj l m hrest
    exact ⟨rfl, rfl⟩

end

theorem dumps_injective : Function.Injective dumps := fun v w h =>
  (dumps_inj v w (s := []) (t := []) nofun nofun (by rw [h])).1

/-! ## Sorted members -/

theorem sortKeysMembers_eq : ∀ {l : List (String × Datum)},
    sortKeysMembers l = l.map fun m => (m.1, sortKeys m.2)
  | [] => rfl
  | (key, value) :: l => by rw [sortKeysMembers, sortKeysMembers_eq, List.map_cons]

theorem sortKeysItems_eq : ∀ {l : List Datum}, sortKeysItems l = l.map sortKeys
  | [] => rfl
  | item :: l => by rw [sortKeysItems, sortKeysItems_eq, List.map_cons]

/-- Objects with the same sorted members have the same value at every key. -/
theorem getIn_of_sortKeys {l m : List (String × Datum)} (hl : (l.map Prod.fst).Nodup) (hm : (m.map Prod.fst).Nodup)
    (h : sortKeys (.object l) = sortKeys (.object m)) (key : String) :
    (Dict.getIn key l).map sortKeys = (Dict.getIn key m).map sortKeys := by
  have hnodup : ∀ l : List (String × Datum), (l.map Prod.fst).Nodup →
      ((l.map fun m => (m.1, sortKeys m.2)).map Prod.fst).Nodup := by
    intro l h
    rwa [List.map_map]
  rw [sortKeys, sortKeys, Datum.object.injEq, sortKeysMembers_eq, sortKeysMembers_eq] at h
  have hperm : (l.map fun m => (m.1, sortKeys m.2)).Perm (m.map fun m => (m.1, sortKeys m.2)) := by
    have hsorted := List.perm_insertionSort (fun m m' : String × Datum => m.1 ≤ m'.1) (l.map fun m => (m.1, sortKeys m.2))
    rw [h] at hsorted
    exact hsorted.symm.trans (List.perm_insertionSort _ _)
  rw [← Dict.getIn_map, ← Dict.getIn_map]
  refine Option.ext fun v => ?_
  rw [Dict.getIn_eq_some (hnodup l hl), Dict.getIn_eq_some (hnodup m hm), hperm.mem_iff]

end Dsl41.Infra.Json
