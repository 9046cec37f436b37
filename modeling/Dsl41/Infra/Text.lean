import Mathlib.Data.List.DropRight

/-!
# Searching, splitting and joining lists

A text is a list of characters. `cut` finds the first occurrence of a needle, `split` cuts at
every occurrence of a separator, `join` puts the pieces together again.
-/

namespace Dsl41.Infra

variable {α : Type} [DecidableEq α]

/-! ## The first occurrence -/

/-- The list up to the end of the first occurrence of the needle, and what comes after it. -/
def cut (needle : List α) : List α → Option (List α × List α)
  | [] => none
  | c :: rest =>
    if needle.isPrefixOf (c :: rest) then some (needle, (c :: rest).drop needle.length)
    else (cut needle rest).map fun (through, after) => (c :: through, after)

section Cut

variable {needle l u v w : List α}

theorem cut_cons_of_pos {c : α} (h : needle <+: c :: l) :
    cut needle (c :: l) = some (needle, (c :: l).drop needle.length) := by
  rw [cut, if_pos (List.isPrefixOf_iff_prefix.mpr h)]

theorem cut_cons_of_neg {c : α} (h : ¬ needle <+: c :: l) :
    cut needle (c :: l) = (cut needle l).map fun (through, after) => (c :: through, after) := by
  rw [cut, if_neg fun hp => h (List.isPrefixOf_iff_prefix.mp hp)]

/-- The two parts are the list, and the first one ends with the needle. -/
theorem cut_eq_some : ∀ {l u v : List α}, cut needle l = some (u, v) →
    u ++ v = l ∧ ∃ before, u = before ++ needle
  | [], _, _, h => nomatch h
  | c :: rest, u, v, h => by
    by_cases hp : needle <+: c :: rest
    · rw [cut_cons_of_pos hp] at h
      cases h
      obtain ⟨after, hafter⟩ := hp
      refine ⟨?_, [], rfl⟩
      rw [← hafter, List.drop_left]
    · rw [cut_cons_of_neg hp, Option.map_eq_some_iff] at h
      obtain ⟨⟨u', v'⟩, hcut, hpair⟩ := h
      cases hpair
      obtain ⟨happ, before, hbefore⟩ := cut_eq_some hcut
      exact ⟨by rw [List.cons_append, happ], c :: before, by rw [hbefore, List.cons_append]⟩

/-- What comes after the first occurrence does not matter to where it is. -/
theorem cut_through (hn : needle ≠ []) : ∀ {l u v : List α}, cut needle l = some (u, v) →
    ∀ w, cut needle (u ++ w) = some (u, w)
  | [], _, _, h, _ => nomatch h
  | c :: rest, u, v, h, w => by
    by_cases hp : needle <+: c :: rest
    · rw [cut_cons_of_pos hp] at h
      cases h
      obtain ⟨x, xs, hx⟩ := List.exists_cons_of_ne_nil hn
      have hpre : needle <+: x :: (xs ++ w) := ⟨w, by rw [hx, List.cons_append]⟩
      rw [show needle ++ w = x :: (xs ++ w) by rw [hx, List.cons_append], cut_cons_of_pos hpre,
        ← List.cons_append, ← hx, List.drop_left]
    · rw [cut_cons_of_neg hp, Option.map_eq_some_iff] at h
      obtain ⟨⟨u', v'⟩, hcut, hpair⟩ := h
      cases hpair
      obtain ⟨happ, before, hbefore⟩ := cut_eq_some hcut
      -- an occurrence at the head would lie within the first part, and so in the old list too
      have hnot : ¬ needle <+: c :: (u' ++ w) := by
        intro hpre
        have hin : needle <+: c :: u' := by
          refine List.prefix_of_prefix_length_le hpre ⟨w, rfl⟩ ?_
          rw [hbefore, List.length_cons, List.length_append]
          omega
        exact hp (hin.trans ⟨v, by rw [List.cons_append, happ]⟩)
      rw [List.cons_append, cut_cons_of_neg hnot, cut_through hn hcut w]
      rfl

theorem cut_append (hn : needle ≠ []) (h : cut needle l = some (u, v)) :
    cut needle (l ++ w) = some (u, v ++ w) := by
  rw [← (cut_eq_some h).1, List.append_assoc]
  exact cut_through hn h (v ++ w)

theorem cut_none_of_append (hn : needle ≠ []) (h : cut needle (l ++ w) = none) :
    cut needle l = none := by
  cases hl : cut needle l with
  | none => rfl
  | some p =>
    obtain ⟨u, v⟩ := p
    rw [cut_append hn hl] at h
    cases h

/-- A tail without the needle's last element adds no occurrence. -/
theorem cut_of_append {last : α} {before : List α} (hn : needle = before ++ [last])
    (hlast : last ∉ w) (h : cut needle (l ++ w) = some (u, v)) :
    ∃ v', v = v' ++ w ∧ cut needle l = some (u, v') := by
  obtain ⟨happ, pre, hpre⟩ := cut_eq_some h
  have hne : needle ≠ [] := by simp [hn]
  obtain ⟨v', hl, hv⟩ | ⟨v', hu, hw⟩ := List.append_eq_append_iff.mp happ
  · refine ⟨v', hv, ?_⟩
    rw [hl]
    exact cut_through hne h v'
  · cases hv' : v' using List.reverseRecOn with
    | nil =>
      subst hv'
      rw [List.append_nil] at hu
      have hcut := cut_through hne h []
      rw [List.append_nil] at hcut
      exact ⟨[], by simpa using hw.symm, hu ▸ hcut⟩
    | append_singleton init x _ =>
      subst hv'
      have hx : x = last := by
        have hlasts : (pre ++ before ++ [last]) = (l ++ init ++ [x]) := by
          rw [List.append_assoc, ← hn, ← hpre, hu, List.append_assoc]
        exact (List.append_inj' hlasts rfl).2 |> List.singleton_inj.mp |> Eq.symm
      refine absurd ?_ hlast
      rw [hw, ← hx]
      simp

end Cut

/-! ## Splitting and joining -/

/-- `str.split`: the pieces between the occurrences of a separator. `skip` is what is left of the
separator in hand, `piece` the current piece in reverse. -/
def splitFrom (sep : List α) : Nat → List α → List α → List (List α)
  | _, piece, [] => [piece.reverse]
  | skip + 1, piece, _ :: rest => splitFrom sep skip piece rest
  | 0, piece, c :: rest =>
    if sep.isPrefixOf (c :: rest) then piece.reverse :: splitFrom sep (sep.length - 1) [] rest
    else splitFrom sep 0 (c :: piece) rest

def split (sep l : List α) : List (List α) := splitFrom sep 0 [] l

/-- `str.join`. -/
def join (sep : List α) : List (List α) → List α
  | [] => []
  | [piece] => piece
  | piece :: next :: rest => piece ++ sep ++ join sep (next :: rest)

section Split

variable {sep : List α}

omit [DecidableEq α] in
theorem join_cons {piece : List α} {pieces : List (List α)} (h : pieces ≠ []) :
    join sep (piece :: pieces) = piece ++ sep ++ join sep pieces := by
  cases pieces with
  | nil => exact absurd rfl h
  | cons next rest => rfl

omit [DecidableEq α] in
theorem join_append {pieces pieces' : List (List α)} (h : pieces ≠ []) (h' : pieces' ≠ []) :
    join sep (pieces ++ pieces') = join sep pieces ++ sep ++ join sep pieces' := by
  induction pieces with
  | nil => exact absurd rfl h
  | cons piece rest ih =>
    cases rest with
    | nil => exact join_cons h'
    | cons next rest =>
      rw [List.cons_append, join_cons (by simp), ih (List.cons_ne_nil _ _),
        join_cons (List.cons_ne_nil _ _)]
      simp only [List.append_assoc]

/-- Blocks of pieces with an empty piece before each but the first. -/
def spaced : List (List (List α)) → List (List α)
  | [] => []
  | block :: blocks => block ++ blocks.flatMap ([] :: ·)

omit [DecidableEq α] in
/-- An empty piece between blocks is a separator twice. -/
theorem join_spaced {blocks : List (List (List α))} (h : ∀ block ∈ blocks, block ≠ []) :
    join sep (spaced blocks) = join (sep ++ sep) (blocks.map (join sep)) := by
  induction blocks with
  | nil => rfl
  | cons block blocks ih =>
    cases blocks with
    | nil => simp [spaced, join]
    | cons next blocks =>
      have hnext : spaced (next :: blocks) ≠ [] := by
        simp [spaced, h next (by simp)]
      rw [List.map_cons, join_cons (by simp), ← ih fun b hb => h b (List.mem_cons_of_mem _ hb)]
      have hspaced : spaced (block :: next :: blocks) = block ++ ([] :: spaced (next :: blocks)) := by
        simp [spaced]
      rw [hspaced, join_append (h block List.mem_cons_self) (List.cons_ne_nil _ _), join_cons hnext]
      simp only [List.nil_append, List.append_assoc]

theorem splitFrom_ne_nil : ∀ {skip : Nat} {piece l : List α}, splitFrom sep skip piece l ≠ []
  | _, _, [] => by simp [splitFrom]
  | skip + 1, piece, c :: rest => by
    rw [splitFrom]
    exact splitFrom_ne_nil
  | 0, piece, c :: rest => by
    rw [splitFrom]
    split
    · simp
    · exact splitFrom_ne_nil

theorem join_splitFrom (hs : sep ≠ []) : ∀ {skip : Nat} {piece l : List α},
    join sep (splitFrom sep skip piece l) = piece.reverse ++ l.drop skip
  | skip, piece, [] => by simp [splitFrom, join]
  | skip + 1, piece, c :: rest => by
    rw [splitFrom, join_splitFrom hs, List.drop_succ_cons]
  | 0, piece, c :: rest => by
    rw [splitFrom]
    split
    · next hp =>
      obtain ⟨after, hafter⟩ := List.isPrefixOf_iff_prefix.mp hp
      obtain ⟨x, xs, hx⟩ := List.exists_cons_of_ne_nil hs
      have hrest : rest.drop (sep.length - 1) = after := by
        rw [hx, List.cons_append] at hafter
        obtain ⟨-, htail⟩ := List.cons.inj hafter
        rw [← htail, hx, List.length_cons, Nat.add_sub_cancel, List.drop_left]
      rw [join_cons splitFrom_ne_nil, join_splitFrom hs, hrest, List.reverse_nil, List.nil_append,
        List.append_assoc, hafter, List.drop_zero]
    · rw [join_splitFrom hs]
      simp

/-- The pieces joined again are the list. -/
theorem join_split (hs : sep ≠ []) (l : List α) : join sep (split sep l) = l := by
  rw [split, join_splitFrom hs]
  simp

variable {l piece : List α} {skip : Nat} {c : α}

theorem splitFrom_length : splitFrom sep l.length piece l = [piece.reverse] := by
  induction l with
  | nil => rfl
  | cons c rest ih => exact ih

omit [DecidableEq α] in
/-- A separator whose first element is nowhere else in it begins nowhere across a list's end. -/
theorem prefix_of_prefix_append (hs : ∀ c ∈ sep.head?, c ∉ sep.tail) (hl : l ≠ [])
    (h : sep <+: l ++ sep) : sep <+: l := by
  obtain ⟨t, ht⟩ := h
  obtain ⟨u, hu, -⟩ | ⟨u, hu, hsep⟩ := List.append_eq_append_iff.mp ht
  · exact ⟨u, hu.symm⟩
  · cases u with
    | nil => exact ⟨[], by simpa using hu⟩
    | cons x u =>
      obtain ⟨y, ys, rfl⟩ := List.exists_cons_of_ne_nil hl
      refine absurd ?_ (hs x (by rw [hsep]; rfl))
      rw [hu]
      simp

/-- A separator at the end adds one empty piece. -/
theorem splitFrom_append_sep (hne : sep ≠ []) (hs : ∀ c ∈ sep.head?, c ∉ sep.tail)
    (hskip : skip ≤ l.length) :
    splitFrom sep skip piece (l ++ sep) = splitFrom sep skip piece l ++ [[]] := by
  induction l generalizing skip piece with
  | nil =>
    obtain rfl := Nat.le_zero.mp hskip
    obtain ⟨x, xs, rfl⟩ := List.exists_cons_of_ne_nil hne
    have hp : (x :: xs).isPrefixOf (x :: xs) = true := List.isPrefixOf_iff_prefix.mpr ⟨[], by simp⟩
    rw [List.nil_append, show splitFrom (x :: xs) 0 piece (x :: xs) = _ from if_pos hp,
      List.length_cons, Nat.add_sub_cancel, splitFrom_length]
    rfl
  | cons c rest ih =>
    cases skip with
    | succ skip => exact ih (Nat.le_of_succ_le_succ hskip)
    | zero =>
      rw [List.cons_append, splitFrom, splitFrom]
      by_cases hp : sep <+: c :: rest
      · have hp' : sep <+: c :: (rest ++ sep) := hp.trans ⟨sep, rfl⟩
        have hlen := hp.length_le
        rw [if_pos (List.isPrefixOf_iff_prefix.mpr hp), if_pos (List.isPrefixOf_iff_prefix.mpr hp'),
          ih (by rw [List.length_cons] at hlen; omega)]
        rfl
      · have hp' : ¬ sep <+: c :: (rest ++ sep) :=
          fun h => hp (prefix_of_prefix_append hs (List.cons_ne_nil c rest) h)
        rw [if_neg (hp <| List.isPrefixOf_iff_prefix.mp ·),
          if_neg (hp' <| List.isPrefixOf_iff_prefix.mp ·), ih (Nat.zero_le _)]

theorem split_append_sep (hne : sep ≠ []) (hs : ∀ c ∈ sep.head?, c ∉ sep.tail) :
    split sep (l ++ sep) = split sep l ++ [[]] :=
  splitFrom_append_sep hne hs (Nat.zero_le _)

/-! ### A separator of one character -/

variable {ch : α}

theorem splitFrom_of_notMem (h : ch ∉ l) : splitFrom [ch] 0 piece l = [piece.reverse ++ l] := by
  induction l generalizing piece with
  | nil => rw [splitFrom, List.append_nil]
  | cons c rest ih =>
    rw [List.mem_cons, not_or] at h
    have hp : [ch].isPrefixOf (c :: rest) = false := by
      change (ch == c && _) = false
      rw [beq_false_of_ne h.1, Bool.false_and]
    rw [splitFrom, hp, if_neg Bool.false_ne_true, ih h.2]
    simp

theorem splitFrom_cons_sep (h : ch ∉ l) :
    splitFrom [ch] 0 piece (l ++ ch :: rest) = (piece.reverse ++ l) :: splitFrom [ch] 0 [] rest := by
  induction l generalizing piece with
  | nil =>
    have hp : [ch].isPrefixOf (ch :: rest) = true := List.isPrefixOf_iff_prefix.mpr ⟨rest, rfl⟩
    rw [List.nil_append, List.append_nil, splitFrom, if_pos hp]
    rfl
  | cons c l ih =>
    rw [List.mem_cons, not_or] at h
    have hp : [ch].isPrefixOf (c :: (l ++ ch :: rest)) = false := by
      change (ch == c && _) = false
      rw [beq_false_of_ne h.1, Bool.false_and]
    rw [List.cons_append, splitFrom, hp, if_neg Bool.false_ne_true, ih h.2]
    simp

/-- Pieces without the separator are found again. -/
theorem split_join : ∀ {pieces : List (List α)}, pieces ≠ [] → (∀ l ∈ pieces, ch ∉ l) →
    split [ch] (join [ch] pieces) = pieces
  | [], hne, _ => absurd rfl hne
  | [piece], _, h => by
    rw [join, split, splitFrom_of_notMem (h piece List.mem_cons_self)]
    rfl
  | piece :: next :: rest, _, h => by
    have ih := split_join (List.cons_ne_nil next rest) fun l hl => h l (List.mem_cons_of_mem _ hl)
    rw [join, List.append_assoc, List.singleton_append, split,
      splitFrom_cons_sep (h piece List.mem_cons_self)]
    exact congrArg (piece :: ·) ih

omit [DecidableEq α] in
theorem mem_join {x : α} : ∀ {pieces : List (List α)}, x ∈ join sep pieces →
    x ∈ sep ∨ ∃ l ∈ pieces, x ∈ l
  | [], h => nomatch h
  | [piece], h => .inr ⟨piece, List.mem_cons_self, h⟩
  | piece :: next :: rest, h => by
    rw [join, List.mem_append, List.mem_append] at h
    rcases h with (h | h) | h
    · exact .inr ⟨piece, List.mem_cons_self, h⟩
    · exact .inl h
    · rcases mem_join h with h | ⟨l, hl, h⟩
      · exact .inl h
      · exact .inr ⟨l, List.mem_cons_of_mem _ hl, h⟩

end Split

end Dsl41.Infra
