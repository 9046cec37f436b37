import Dsl41.Jil.Render
import Dsl41.Jil.Scanner
import Mathlib.Data.List.ModifyLast

/-!
# Blocks and regions

The block operations on lines, and what it means that a region of several lines ends where it
does: `region_eq_some` says which texts `region` finds, in both directions.
-/

namespace Dsl41.Jil

open Dsl41.Infra

/-! ## Blocks -/

namespace Block

variable {b : Block} {t u l : Line} {first : Line} {rest before : List Line}

@[simp] theorem appendLast_single : appendLast ⟨first, []⟩ t = ⟨first ++ t, []⟩ := rfl

@[simp] theorem appendLast_concat :
    appendLast ⟨first, before ++ [l]⟩ t = ⟨first, before ++ [l ++ t]⟩ := by
  have hne : before ++ [l] ≠ [] := by simp
  rw [appendLast]
  split
  · next h => exact absurd h hne
  · rw [List.modifyLast_concat]

/-- A block has one line, or a last one after its first. -/
theorem cases_last (b : Block) :
    (∃ first, b = ⟨first, []⟩) ∨ ∃ first before l, b = ⟨first, before ++ [l]⟩ := by
  obtain ⟨first, rest⟩ := b
  obtain rfl | ⟨before, l, rfl⟩ := rest.eq_nil_or_concat'
  · exact .inl ⟨first, rfl⟩
  · exact .inr ⟨first, before, l, rfl⟩

@[simp] theorem appendLast_nil : b.appendLast [] = b := by
  obtain ⟨first, rfl⟩ | ⟨first, before, l, rfl⟩ := b.cases_last
  · simp
  · simp

theorem appendLast_appendLast : (b.appendLast t).appendLast u = b.appendLast (t ++ u) := by
  obtain ⟨first, rfl⟩ | ⟨first, before, l, rfl⟩ := b.cases_last
  · simp
  · simp

@[simp] theorem length_rest_appendLast : (b.appendLast t).rest.length = b.rest.length := by
  obtain ⟨first, rfl⟩ | ⟨first, before, l, rfl⟩ := b.cases_last
  · rfl
  · simp

theorem lines_addLine : (b.addLine l).lines = b.lines ++ [l] := rfl

theorem appendLast_addLine : (b.addLine l).appendLast t = b.addLine (l ++ t) := by
  obtain ⟨first, rest⟩ := b
  exact appendLast_concat

theorem first_appendLast (h : b.rest ≠ []) : (b.appendLast t).first = b.first := by
  obtain ⟨first, rfl⟩ | ⟨first, before, l, rfl⟩ := b.cases_last
  · exact absurd rfl h
  · rw [appendLast_concat]

/-- The first line of the block begins the first line of what appending gives. -/
theorem first_appendLast_cons : ∃ w, (b.appendLast t).first = b.first ++ w := by
  obtain ⟨first, rfl⟩ | ⟨first, before, l, rfl⟩ := b.cases_last
  · exact ⟨t, rfl⟩
  · exact ⟨[], by simp⟩

theorem prepend_appendLast : (b.appendLast t).prepend l = (b.prepend l).appendLast t := by
  obtain ⟨first, rfl⟩ | ⟨first, before, l, rfl⟩ := b.cases_last
  · simp [prepend]
  · simp [prepend]

variable {c d : Block}

theorem appendLast_eq_append : b.appendLast t = b.append ⟨t, []⟩ := by
  rw [append, List.append_nil]

theorem lines_append : (b.append c).lines = (b.appendLast c.first).lines ++ c.rest := rfl

@[simp] theorem append_single : append ⟨first, []⟩ c = ⟨first ++ c.first, c.rest⟩ := rfl

@[simp] theorem append_concat :
    append ⟨first, before ++ [l]⟩ c = ⟨first, before ++ (l ++ c.first) :: c.rest⟩ := by
  rw [append, appendLast_concat]
  simp

theorem prepend_append : (b.append c).prepend l = (b.prepend l).append c := by
  obtain ⟨first, rfl⟩ | ⟨first, before, x, rfl⟩ := b.cases_last
  · simp [prepend]
  · simp [prepend]

theorem append_assoc : (b.append c).append d = b.append (c.append d) := by
  obtain ⟨u, rfl⟩ | ⟨u, us, x, rfl⟩ := b.cases_last
  · obtain ⟨v, rfl⟩ | ⟨v, vs, y, rfl⟩ := c.cases_last
    · simp
    · simp
  · obtain ⟨v, rfl⟩ | ⟨v, vs, y, rfl⟩ := c.cases_last
    · simp
    · rw [append_concat, append_concat, append_concat, ← List.cons_append, ← List.append_assoc,
        append_concat]
      simp

end Block

/-! ## Regions -/

variable {needle : Line} {n k : Nat} {b : Block} {body through after : Line}
  {before rest ls : List Line}

/-- A text whose first needle, after its first `n` characters, is its end. -/
def IsRegion (needle : Line) (n : Nat) (b : Block) : Prop :=
  n ≤ b.first.length ∧
    ((b.rest = [] ∧ cut needle (b.first.drop n) = some (b.first.drop n, [])) ∨
      ∃ before last, b.rest = before ++ [last] ∧ cut needle (b.first.drop n) = none ∧
        (∀ l ∈ before, cut needle l = none) ∧ cut needle last = some (last, []))

theorem cutLines_eq_some (hn : needle ≠ []) :
    cutLines needle ls = some (before, through, after) ↔
      (∀ l ∈ before, cut needle l = none) ∧ cut needle through = some (through, []) ∧
        ∃ more, ls = before ++ (through ++ after) :: more := by
  induction ls generalizing before through after with
  | nil => simp [cutLines]
  | cons l rest ih =>
    rw [cutLines]
    cases hcut : cut needle l with
    | some p =>
      obtain ⟨u, v⟩ := p
      simp only [Option.some.injEq, Prod.mk.injEq]
      constructor
      · rintro ⟨rfl, rfl, rfl⟩
        have hthrough := cut_through hn hcut []
        rw [List.append_nil] at hthrough
        exact ⟨by simp, hthrough, rest, by rw [(cut_eq_some hcut).1]; rfl⟩
      · rintro ⟨hbefore, hthrough, more, hls⟩
        cases before with
        | nil =>
          obtain ⟨hl, -⟩ := List.cons.inj hls
          have h := cut_append hn hthrough (w := after)
          rw [List.nil_append, ← hl, hcut] at h
          cases h
          exact ⟨rfl, rfl, rfl⟩
        | cons x before =>
          obtain ⟨hl, -⟩ := List.cons.inj hls
          have h := hbefore x List.mem_cons_self
          rw [← hl, hcut] at h
          cases h
    | none =>
      simp only [Option.map_eq_some_iff, Prod.exists, Prod.mk.injEq]
      constructor
      · rintro ⟨before', through', after', h, rfl, rfl, rfl⟩
        obtain ⟨hbefore, hthrough, more, hmore⟩ := ih.mp h
        exact ⟨List.forall_mem_cons.mpr ⟨hcut, hbefore⟩, hthrough, more, by rw [hmore]; rfl⟩
      · rintro ⟨hbefore, hthrough, more, hls⟩
        cases before with
        | nil =>
          obtain ⟨hl, -⟩ := List.cons.inj hls
          have h := cut_append hn hthrough (w := after)
          rw [List.nil_append, ← hl, hcut] at h
          cases h
        | cons x before =>
          obtain ⟨hl, hrest⟩ := List.cons.inj hls
          obtain ⟨-, hbefore⟩ := List.forall_mem_cons.mp hbefore
          exact ⟨before, through, after,
            ih.mpr ⟨hbefore, hthrough, more, hrest⟩, by rw [hl], rfl, rfl⟩

/-- What `region` finds: the lines it takes are the region's with what follows it. -/
theorem region_eq_some (hn : needle ≠ []) (hlen : n ≤ body.length) :
    region needle n body rest = some (b, after, k) ↔
      IsRegion needle n b ∧ k = b.rest.length ∧
        ∃ more, body :: rest = (b.appendLast after).lines ++ more := by
  rw [region]
  cases hcut : cut needle (body.drop n) with
  | some p =>
    obtain ⟨u, v⟩ := p
    have hbody : body.take n ++ u ++ v = body := by
      rw [List.append_assoc, (cut_eq_some hcut).1, List.take_append_drop]
    have hdrop : (body.take n ++ u).drop n = u :=
      List.drop_left' (by rw [List.length_take, Nat.min_eq_left hlen])
    simp only [Option.some.injEq, Prod.mk.injEq]
    constructor
    · rintro ⟨rfl, rfl, rfl⟩
      have hu := cut_through hn hcut []
      rw [List.append_nil] at hu
      refine ⟨⟨?_, .inl ⟨rfl, by rw [hdrop, hu]⟩⟩, rfl, rest, by simp [Block.lines, hbody]⟩
      simp only [List.length_append, List.length_take]
      omega
    · rintro ⟨⟨hn', hregion⟩, rfl, more, hlines⟩
      obtain ⟨first, rest'⟩ := b
      obtain ⟨hrest, hfirst⟩ | ⟨before, last, hrest, hnone, -, -⟩ := hregion
      · dsimp only at hrest hfirst hn'
        subst hrest
        obtain ⟨hl, -⟩ := List.cons.inj hlines
        dsimp only [Block.appendLast] at hl
        have h := cut_append hn hfirst (w := after)
        rw [← List.drop_append_of_le_length hn', ← hl, hcut] at h
        cases h
        refine ⟨?_, rfl, rfl⟩
        rw [hl, List.take_append_of_le_length hn', List.take_append_drop]
      · dsimp only at hrest hnone
        subst hrest
        rw [Block.appendLast_concat] at hlines
        obtain ⟨hl, -⟩ := List.cons.inj hlines
        dsimp only at hl
        rw [← hl, hcut] at hnone
        cases hnone
  | none =>
    simp only [Option.map_eq_some_iff, Prod.exists, Prod.mk.injEq]
    constructor
    · rintro ⟨before, through, after', h, rfl, rfl, rfl⟩
      obtain ⟨hbefore, hthrough, more, hmore⟩ := (cutLines_eq_some hn).mp h
      refine ⟨⟨hlen, .inr ⟨before, through, rfl, hcut, hbefore, hthrough⟩⟩, by simp, more, ?_⟩
      rw [Block.appendLast_concat, hmore]
      simp [Block.lines]
    · rintro ⟨⟨hn', hregion⟩, rfl, more, hlines⟩
      obtain ⟨first, rest'⟩ := b
      obtain ⟨hrest, hfirst⟩ | ⟨before, last, hrest, -, hbefore, hlast⟩ := hregion
      · dsimp only at hrest hfirst hn'
        subst hrest
        obtain ⟨hl, -⟩ := List.cons.inj hlines
        dsimp only [Block.appendLast] at hl
        have h := cut_append hn hfirst (w := after)
        rw [← List.drop_append_of_le_length hn', ← hl, hcut] at h
        cases h
      · dsimp only at hrest
        subst hrest
        rw [Block.appendLast_concat] at hlines
        obtain ⟨hl, hls⟩ := List.cons.inj hlines
        dsimp only at hl
        refine ⟨before, last, after, (cutLines_eq_some hn).mpr ⟨hbefore, hlast, more, ?_⟩, ?_⟩
        · rw [hls]
          simp
        · simp [hl]

end Dsl41.Jil
