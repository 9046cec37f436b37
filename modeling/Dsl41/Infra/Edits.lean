import Mathlib.Data.List.Basic

/-!
# Edits of a list

An edit replaces what stands between two places. Edits made from the last to the first leave the
places of those still to be made where they were: what they come to is the list with each
part replaced where it stood.
-/

namespace Dsl41.Infra

variable {α : Type*}

/-- Where a part starts and stops, and what replaces it. -/
structure Edit (α : Type*) where
  start : Nat
  stop : Nat
  replacement : List α

def splice (l : List α) (e : Edit α) : List α := l.take e.start ++ (e.replacement ++ l.drop e.stop)

/-- The last edit first. -/
def applyEdits (edits : List (Edit α)) (l : List α) : List α := edits.reverse.foldl splice l

/-- A stretch of a list from a place on, before its edits and after them. -/
inductive Covers : Nat → List (Edit α) → List α → List α → Prop
  | gap (n : Nat) (l : List α) : Covers n [] l l
  | edit {n : Nat} {gap old new before after : List α} {edits : List (Edit α)}
      (h : Covers (n + gap.length + old.length) edits before after) :
      Covers n (⟨n + gap.length, n + gap.length + old.length, new⟩ :: edits) (gap ++ (old ++ before))
        (gap ++ (new ++ after))

variable {n : Nat} {before after before' after' gap old new : List α} {edits edits' : List (Edit α)}

theorem Covers.one : Covers n [⟨n, n + old.length, new⟩] old new := by
  have h : Covers n [⟨n + ([] : List α).length, n + ([] : List α).length + old.length, new⟩] ([] ++ (old ++ []))
      ([] ++ (new ++ [])) := .edit (.gap _ [])
  simpa using h

theorem Covers.gap_append (h : Covers (n + gap.length) edits before after) :
    Covers n edits (gap ++ before) (gap ++ after) := by
  generalize hm : n + gap.length = m at h
  cases h with
  | gap => exact .gap n _
  | edit h =>
    rename_i gap' old new rest rest' edits
    have hplace : m + gap'.length = n + (gap ++ gap').length := by
      rw [List.length_append]
      omega
    rw [hplace] at h ⊢
    rw [← List.append_assoc gap gap' (old ++ rest), ← List.append_assoc gap gap' (new ++ rest')]
    exact .edit h

theorem Covers.append (h : Covers n edits before after) (h' : Covers (n + before.length) edits' before' after') :
    Covers n (edits ++ edits') (before ++ before') (after ++ after') := by
  induction h with
  | gap n l => exact h'.gap_append
  | @edit n gap old new before after edits h ih =>
    have hlength : n + (gap ++ (old ++ before)).length = n + gap.length + old.length + before.length := by
      simp only [List.length_append]
      omega
    rw [hlength] at h'
    rw [List.cons_append, List.append_assoc, List.append_assoc, List.append_assoc, List.append_assoc]
    exact .edit (ih h')

/-- The edits of a stretch replace it and nothing else. -/
theorem Covers.applyEdits (h : Covers n edits before after) {left : List α} (hleft : left.length = n)
    (right : List α) : applyEdits edits (left ++ (before ++ right)) = left ++ (after ++ right) := by
  induction h generalizing left with
  | gap n l => rfl
  | @edit n gap old new before after edits h ih =>
    have hlength : (left ++ (gap ++ old)).length = n + gap.length + old.length := by
      simp only [List.length_append]
      omega
    have hrest := ih hlength
    have hbefore : left ++ (gap ++ (old ++ before) ++ right) = left ++ (gap ++ old) ++ (before ++ right) := by
      simp only [List.append_assoc]
    have hstart : left.length + gap.length = (left ++ gap).length := List.length_append.symm
    have htake : (left ++ (gap ++ old) ++ (after ++ right)).take (n + gap.length) = left ++ gap := by
      rw [← hleft, hstart, ← List.append_assoc left gap old, List.append_assoc, List.take_left]
    have hdrop : (left ++ (gap ++ old) ++ (after ++ right)).drop (n + gap.length + old.length) = after ++ right := by
      have hstop : n + gap.length + old.length = (left ++ (gap ++ old)).length := by
        simp only [List.length_append]
        omega
      rw [hstop, List.drop_left]
    rw [Infra.applyEdits, List.reverse_cons, List.foldl_append]
    show splice (Infra.applyEdits edits _) _ = _
    rw [hbefore, hrest, splice, htake, hdrop]
    simp only [List.append_assoc]

end Dsl41.Infra
