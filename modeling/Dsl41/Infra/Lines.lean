import Mathlib.Data.List.DropRight
import Mathlib.Data.List.Induction

/-!
# Lines of bytes

Lines that each end in a separator, and the last one that may not. The bytes of a text hold a
separator exactly where the text does, and a beginning of them that is a text is a beginning of the
text.
-/

namespace Dsl41.Infra

/-! ## Lines -/

section Lines

variable {α : Type} {sep : α} {ls : List (List α)} {tail : List α}

/-- Every line with a separator after it. -/
def unlines (sep : α) (ls : List (List α)) : List α := ls.flatMap fun l => l ++ [sep]

@[simp] theorem unlines_nil : unlines sep [] = [] := rfl

theorem unlines_concat {l : List α} : unlines sep (ls ++ [l]) = unlines sep ls ++ (l ++ [sep]) := by
  rw [unlines, List.flatMap_append, List.flatMap_cons, List.flatMap_nil, List.append_nil]
  rfl

theorem unlines_eq_nil : unlines sep ls = [] ↔ ls = [] := by
  rw [unlines, List.flatMap_eq_nil_iff]
  constructor
  · intro h
    cases ls with
    | nil => rfl
    | cons l ls => exact absurd (h l List.mem_cons_self) (by simp)
  · rintro rfl l hl
    cases hl

theorem rdropWhile_append_all {p : α → Bool} {data : List α} (h : ∀ x ∈ tail, p x = true) :
    (data ++ tail).rdropWhile p = data.rdropWhile p := by
  induction tail using List.reverseRecOn with
  | nil => rw [List.append_nil]
  | append_singleton tail x ih =>
    rw [← List.append_assoc, List.rdropWhile_concat_pos]
    · exact ih fun y hy => h y (List.mem_append_left _ hy)
    · exact h x (List.mem_append_right _ (List.mem_singleton_self x))

variable [DecidableEq α]

/-- The separated lines, then what follows the last separator. -/
theorem splitOn_unlines (hls : ∀ l ∈ ls, sep ∉ l) (htail : sep ∉ tail) :
    (unlines sep ls ++ tail).splitOn sep = ls ++ [tail] := by
  have hjoin : unlines sep ls ++ tail = [sep].intercalate (ls ++ [tail]) := by
    clear hls
    induction ls with
    | nil => simp [unlines]
    | cons l ls ih =>
      have hcons : unlines sep (l :: ls) ++ tail = l ++ sep :: (unlines sep ls ++ tail) := by
        rw [unlines, List.flatMap_cons, List.append_assoc, List.append_assoc]
        rfl
      rw [hcons, ih, List.cons_append, List.intercalate_cons_of_ne_nil]
      · simp
      · simp
  rw [hjoin]
  refine List.splitOn_intercalate sep (fun l hl => ?_) (by simp)
  rcases List.mem_append.mp hl with hl | hl
  · exact hls l hl
  · exact List.mem_singleton.mp hl ▸ htail

/-- What stands up to the last separator, with it. -/
def wholeLines (sep : α) (data : List α) : List α := data.rdropWhile fun x => decide (x ≠ sep)

/-- What follows the last separator. -/
def lastLine (sep : α) (data : List α) : List α := data.rtakeWhile fun x => decide (x ≠ sep)

theorem wholeLines_unlines (htail : sep ∉ tail) : wholeLines sep (unlines sep ls ++ tail) = unlines sep ls := by
  have hall : ∀ x ∈ tail, decide (x ≠ sep) = true := fun x hx => decide_eq_true fun h => htail (h ▸ hx)
  rw [wholeLines, rdropWhile_append_all hall, List.rdropWhile_eq_self_iff]
  intro hne
  induction ls using List.reverseRecOn with
  | nil => exact absurd rfl hne
  | append_singleton ls l _ =>
    simp only [unlines_concat, ← List.append_assoc, List.getLast_concat]
    simp

theorem lastLine_unlines (htail : sep ∉ tail) : lastLine sep (unlines sep ls ++ tail) = tail := by
  have hsplit := List.rdropWhile_append_rtakeWhile (p := fun x => decide (x ≠ sep)) (l := unlines sep ls ++ tail)
  have hwhole : (unlines sep ls ++ tail).rdropWhile (fun x => decide (x ≠ sep)) = unlines sep ls :=
    wholeLines_unlines htail
  rw [hwhole] at hsplit
  exact List.append_cancel_left hsplit

end Lines

/-! ## UTF-8 -/

section Utf8

variable {cs : List Char} {p : List UInt8}

/-- The bytes of a text. -/
def utf8 (cs : List Char) : List UInt8 := cs.flatMap String.utf8EncodeChar

theorem toByteArray_utf8 : (utf8 cs).toByteArray = cs.utf8Encode := rfl

/-- A byte below 128 is the character of that code. -/
theorem mem_utf8EncodeChar {c : Char} {x : UInt8} (hx : x ∈ String.utf8EncodeChar c) (hlow : x.toNat < 0x80) :
    c.toNat = x.toNat := by
  have hbyte : ∀ k < 0x100, (UInt8.ofNat k).toNat = k := fun k hk => by
    rw [UInt8.toNat_ofNat', Nat.mod_eq_of_lt hk]
  unfold String.utf8EncodeChar at hx
  dsimp only at hx
  split at hx
  · next hc =>
    rw [List.mem_singleton.mp hx, hbyte _ (by omega)]
    rfl
  · split at hx
    · simp only [List.mem_cons, List.not_mem_nil, or_false] at hx
      rcases hx with rfl | rfl
      · rw [hbyte _ (by omega)] at hlow
        omega
      · rw [hbyte _ (by omega)] at hlow
        omega
    · split at hx
      · simp only [List.mem_cons, List.not_mem_nil, or_false] at hx
        rcases hx with rfl | rfl | rfl
        · rw [hbyte _ (by omega)] at hlow
          omega
        · rw [hbyte _ (by omega)] at hlow
          omega
        · rw [hbyte _ (by omega)] at hlow
          omega
      · simp only [List.mem_cons, List.not_mem_nil, or_false] at hx
        rcases hx with rfl | rfl | rfl | rfl
        · rw [hbyte _ (by omega)] at hlow
          omega
        · rw [hbyte _ (by omega)] at hlow
          omega
        · rw [hbyte _ (by omega)] at hlow
          omega
        · rw [hbyte _ (by omega)] at hlow
          omega

theorem newline_mem_utf8 (h : 10 ∈ utf8 cs) : '\n' ∈ cs := by
  obtain ⟨c, hc, hx⟩ := List.mem_flatMap.mp h
  have hcode := mem_utf8EncodeChar hx (by decide)
  obtain rfl : c = '\n' := Char.toNat_inj.mp hcode
  exact hc

/-- A beginning of a text's bytes that is a text itself is a beginning of the text. -/
theorem prefix_of_utf8Decode? {text : Array Char} (hp : p <+: utf8 cs) (h : p.toByteArray.utf8Decode? = some text) :
    text.toList <+: cs ∧ p = utf8 text.toList := by
  have hbytes : utf8 text.toList = p := by
    have hsome : p.toByteArray.utf8Decode?.isSome := by rw [h]; rfl
    have hget := ByteArray.utf8Encode_get_utf8Decode? (b := p.toByteArray) (h := hsome)
    simp only [h, Option.get_some] at hget
    have hlists := congrArg (fun b : ByteArray => b.data.toList) (toByteArray_utf8.trans hget)
    simpa using hlists
  refine ⟨?_, hbytes.symm⟩
  obtain ⟨more, hmore⟩ := hp
  refine List.isPrefix_of_utf8Encode_append_eq_utf8Encode more.toByteArray ?_
  rw [← toByteArray_utf8, ← toByteArray_utf8, hbytes, ← hmore]
  simp

end Utf8

end Dsl41.Infra
