import Dsl41.Jil.Scanner
import Mathlib.Data.List.Forall2

/-!
# Keys and inline pairs

What a key-shaped text is, and what the search for a second pair finds: the text around the pair,
the same in the value as in its masked form.
-/

namespace Dsl41.Jil

open Dsl41.Infra

/-- A key as the scanner reads one before a colon. -/
def IsKey (key : Line) : Prop :=
  ∃ c cs, key = c :: cs ∧ isKeyStart c = true ∧ key.all isKeyChar = true

/-- The text after the gap of a key line starts with no blank. -/
def NoGap (l : Line) : Prop := ∀ c ∈ l.head?, isBlank c = false

theorem takeWhile_gap {gap l : Line} (hgap : gap.all isBlank = true) (hl : NoGap l) :
    (gap ++ l).takeWhile isBlank = gap ∧ (gap ++ l).dropWhile isBlank = l := by
  rw [List.all_eq_true] at hgap
  rw [List.takeWhile_append_of_pos hgap, List.dropWhile_append_of_pos hgap]
  cases l with
  | nil => simp
  | cons c cs =>
    have hc : isBlank c = false := hl c rfl
    simp [hc]

theorem noGap_dropWhile (l : Line) : NoGap (l.dropWhile isBlank) := by
  intro c hc
  rw [Option.mem_def] at hc
  have h := List.head?_dropWhile_not isBlank l
  rw [hc] at h
  simpa using h

theorem keyOf_eq_some {body key after : Line} :
    keyOf body = some (key, after) ↔ IsKey key ∧ body = key ++ ':' :: after := by
  constructor
  · intro h
    have hbody := List.takeWhile_append_dropWhile (p := isKeyChar) (l := body)
    have hall := List.all_takeWhile (p := isKeyChar) (l := body)
    rw [keyOf] at h
    split at h
    · next c cs rest htake hdrop =>
      rw [htake, hdrop] at hbody
      rw [htake] at hall
      split at h
      · next hc =>
        cases h
        exact ⟨⟨c, cs, rfl, hc, hall⟩, hbody.symm⟩
      · cases h
    · cases h
  · rintro ⟨⟨c, cs, rfl, hc, hall⟩, rfl⟩
    rw [List.all_eq_true] at hall
    have htake : (c :: cs ++ ':' :: after).takeWhile isKeyChar = c :: cs := by
      rw [List.takeWhile_append_of_pos hall, List.takeWhile_cons_of_neg (by decide), List.append_nil]
    have hdrop : (c :: cs ++ ':' :: after).dropWhile isKeyChar = ':' :: after := by
      rw [List.dropWhile_append_of_pos hall, List.dropWhile_cons_of_neg (by decide)]
    rw [keyOf, htake, hdrop]
    exact if_pos hc

/-! ## The mask -/

/-- A masked character is the fill or the character it stands for. -/
def Masks (c m : Char) : Prop := m = maskFill ∨ m = c

theorem maskFrom_masks (skip : Nat) (inQuote opens : Bool) (l : Line) :
    List.Forall₂ Masks l (maskFrom skip inQuote opens l) := by
  have hself : ∀ l : Line, List.Forall₂ Masks l l :=
    fun l => List.forall₂_same.mpr fun c _ => .inr rfl
  induction l generalizing skip inQuote opens with
  | nil => exact .nil
  | cons c rest ih =>
    cases skip with
    | succ skip => exact .cons (.inl rfl) (ih _ _ _)
    | zero =>
      rw [maskFrom]
      split
      · exact .cons (.inr rfl) (ih _ _ _)
      · split
        · split
          · exact hself _
          · exact .cons (.inl rfl) (ih _ _ _)
        · exact .cons (.inr rfl) (ih _ _ _)

theorem maskClosedBlocks_masks (l : Line) (inQuote atStart : Bool) :
    List.Forall₂ Masks l (maskClosedBlocks l inQuote atStart) :=
  maskFrom_masks 0 inQuote atStart l

/-- Text without the fill stands for itself. -/
theorem eq_of_masks {m l : Line} (h : List.Forall₂ Masks l m) (hm : maskFill ∉ m) : l = m := by
  induction h with
  | nil => rfl
  | cons hc _ ih =>
    rw [List.mem_cons, not_or] at hm
    obtain hc | hc := hc
    · exact absurd hc.symm hm.1
    · rw [ih hm.2, hc]

/-! ## The search for a pair -/

/-- Where a pair stands in the text it was found in. -/
structure InlinePair.Stands (m : InlinePair) (l : Line) (before after : Line) : Prop where
  text : l = before ++ (m.gap ++ (m.key ++ ':' :: after))
  start : before.length = m.start
  gap : m.gap.all isBlank = true
  gap_ne : m.gap ≠ []
  key : IsKey m.key

theorem findInlineFrom_eq_some (seen : Line) {m : InlinePair} {l : Line} {inQuote : Bool}
    (h : findInlineFrom seen.length inQuote l = some m) :
    ∃ before after, m.Stands (seen ++ l) before after := by
  induction l generalizing seen inQuote with
  | nil => cases h
  | cons c rest ih =>
    rw [findInlineFrom] at h
    split at h
    · next gap key hat =>
      cases h
      split at hat
      · next hc =>
        rw [Bool.and_eq_true] at hc
        rw [inlineAt, Option.map_eq_some_iff] at hat
        obtain ⟨⟨key', after⟩, hkey, hpair⟩ := hat
        cases hpair
        obtain ⟨hiskey, hdrop⟩ := keyOf_eq_some.mp hkey
        refine ⟨seen, after, ?_, rfl, List.all_takeWhile, ?_, hiskey⟩
        · rw [← hdrop, List.takeWhile_append_dropWhile]
        · dsimp only
          rw [List.takeWhile_cons_of_pos hc.1]
          exact List.cons_ne_nil _ _
      · cases hat
    · have h' : findInlineFrom (seen ++ [c]).length (inQuote ^^ (c == '"')) rest = some m := by
        rwa [List.length_append]
      have := ih _ h'
      rwa [List.append_assoc, List.singleton_append] at this

theorem notMem_of_all {p : Char → Bool} {l : Line} {c : Char} (h : l.all p = true)
    (hc : p c = false) : c ∉ l := fun hm => by
  rw [List.all_eq_true] at h
  rw [h c hm] at hc
  cases hc

theorem masks_append {l a b : Line} (h : List.Forall₂ Masks l (a ++ b)) :
    ∃ la lb, l = la ++ lb ∧ List.Forall₂ Masks la a ∧ List.Forall₂ Masks lb b :=
  ⟨_, _, (List.take_append_drop a.length l).symm, List.forall₂_take_append _ _ _ h,
    List.forall₂_drop_append _ _ _ h⟩

/-- A pair that is found in the masked value stands in the value. -/
theorem stands_of_findInlinePair {m : InlinePair} {v : Line} {inQuote inQuote' atStart : Bool}
    (h : findInlinePair (maskClosedBlocks v inQuote atStart) inQuote' = some m) :
    ∃ before after, m.Stands v before after := by
  obtain ⟨before, after, hstands⟩ := findInlineFrom_eq_some [] h
  rw [List.nil_append] at hstands
  have hmask := maskClosedBlocks_masks v inQuote atStart
  rw [hstands.text] at hmask
  obtain ⟨before', v₁, rfl, hbefore, h₁⟩ := masks_append hmask
  obtain ⟨gap, v₂, rfl, hgap, h₂⟩ := masks_append h₁
  obtain ⟨key, v₃, rfl, hkey, h₃⟩ := masks_append h₂
  -- the fill is in neither the gap nor the key, so each of them stands for itself
  obtain rfl := eq_of_masks hgap (notMem_of_all hstands.gap (by decide))
  obtain ⟨c, cs, -, -, hall⟩ := hstands.key
  obtain rfl := eq_of_masks hkey (notMem_of_all hall (by decide))
  obtain ⟨d, rest, hd, -, rfl⟩ := List.forall₂_cons_right_iff.mp h₃
  have hd' : d = ':' := hd.elim (fun hd => absurd hd (by decide)) Eq.symm
  subst hd'
  exact ⟨before', rest, rfl, hbefore.length_eq.trans hstands.start, hstands.gap, hstands.gap_ne,
    hstands.key⟩

/-- The header of a statement line is the value, cut at its pair. -/
theorem scanHeader_text {i : Nat} {v : Line} {header : Header} (h : scanHeader i v = .ok header) :
    v = header.subject ++
      match header.jobTypeInline with
      | some jobType =>
        header.inlineGap ++ header.inlineKey ++ [':'] ++ header.inlineSep ++ jobType
      | none => [] := by
  unfold scanHeader at h
  dsimp only at h
  split at h
  · cases h
    simp
  · next m hm =>
    obtain ⟨before, after, hv⟩ := stands_of_findInlinePair hm
    split at h
    · cases h
    · split at h
      · cases h
      · cases h
        have htake : v.take m.start = before := by
          rw [hv.text]
          exact List.take_left' hv.start
        have hdrop : v.drop m.end_ = after := by
          have hlen : m.end_ = (before ++ m.gap ++ m.key ++ [':']).length := by
            simp only [InlinePair.end_, ← hv.start, List.length_append, List.length_singleton]
          have htext : v = before ++ m.gap ++ m.key ++ [':'] ++ after := by
            simp only [List.append_assoc, List.singleton_append]
            exact hv.text
          rw [hlen, htext]
          exact List.drop_left
        simp only [htake, hdrop, List.append_assoc, List.takeWhile_append_dropWhile]
        exact hv.text

/-- Where the header stands matters to its errors only. -/
theorem scanHeader_index {i j : Nat} {v : Line} {header : Header} (h : scanHeader i v = .ok header) :
    scanHeader j v = .ok header := by
  unfold scanHeader at h ⊢
  dsimp only at h ⊢
  cases hm : findInlinePair (maskClosedBlocks v) with
  | none =>
    rw [hm] at h
    exact h
  | some m =>
    simp only [hm] at h
    dsimp only
    split at h
    · cases h
    · next hkey =>
      rw [if_neg hkey]
      split at h
      · cases h
      · next hpair =>
        rw [if_neg hpair]
        exact h

end Dsl41.Jil
