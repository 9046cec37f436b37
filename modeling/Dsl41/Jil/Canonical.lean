import Dsl41.Jil.Trim

/-!
# The canonical elements

Each element of a scanned file has a canonical one that is scanned as well, whose lines are what
the canonical mode writes for the first one. The canonical one is built along the grammar.
-/

namespace Dsl41.Jil

open Dsl41.Infra

variable {q o q' o' block opens : Bool} {v w x t line : Line} {b : Block} {c : Char}

/-! ## Comments -/

/-- A comment on its own lines, as the canonical mode writes it. -/
def trimComment (preBlankLines : List Line) (c : Comment) : Comment where
  text := c.text.map rstrip
  attachment := .leading
  preBlankLines

/-- The gap before a trailing comment. -/
def lineGap (atStart : Bool) (v : Line) : Line := if v = [] ∧ atStart then [] else [' ']

/-- A trailing comment, as the canonical mode writes it. -/
def trimTrailing (gap : Line) (tc : Comment) : Comment :=
  { tc with text := tc.text.map rstrip, indent := gap, post := [] }

theorem IsRegion.trim (h : IsRegion closer 2 b) (hp : opener <+: b.first) :
    IsRegion closer 2 (b.map rstrip) ∧ opener <+: (b.map rstrip).first := by
  obtain ⟨first, rest⟩ := b
  obtain ⟨t, rfl⟩ := hp
  obtain ⟨-, h⟩ := h
  have hfirst : rstrip (opener ++ t) = opener ++ rstrip t := rstrip_append rfl
  refine ⟨⟨by simp only [Block.map, hfirst]; simp [opener], ?_⟩, by rw [Block.map, hfirst]; exact ⟨_, rfl⟩⟩
  rw [Block.map, hfirst]
  obtain ⟨hrest, hclosed⟩ | ⟨before, last, hrest, hnone, hbefore, hlast⟩ := h
  · dsimp only at hrest
    have ht : rstrip t = t := rstrip_of_closer (x := []) hclosed
    exact .inl ⟨by rw [hrest]; rfl, by rw [ht]; exact hclosed⟩
  · dsimp only at hrest
    have hcut : ∀ l, cut closer l = none → cut closer (rstrip l) = none := by
      intro l hl
      obtain ⟨w, hw, -⟩ := exists_rstrip l
      rw [hw] at hl
      exact cut_none_of_append (by decide) hl
    refine .inr ⟨before.map rstrip, last, ?_, hcut t hnone, ?_, hlast⟩
    · rw [hrest, List.map_append, List.map_singleton, show rstrip last = last from
        rstrip_of_closer (x := []) hlast]
    · intro l hl
      obtain ⟨l', hl', rfl⟩ := List.mem_map.mp hl
      exact hcut l' (hbefore l' hl')

theorem OwnComment.trim {c : Comment} {preBlankLines : List Line} (h : OwnComment c)
    (hpre : BlankLines preBlankLines) : OwnComment (trimComment preBlankLines c) := by
  cases h with
  | @hash indent text =>
    have htext : rstrip ('#' :: text) = '#' :: rstrip text := rstrip_append (x := ['#']) rfl
    rw [trimComment, Block.map, htext]
    exact .hash rfl hpre
  | block _ _ htext hopens =>
    obtain ⟨htext, hopens⟩ := htext.trim hopens
    exact .block rfl hpre htext hopens rfl

/-- The walk to a trailing comment in canonical text. -/
theorem Walk.lineGap (h : Walk 0 q o v false o') : Walk 0 q o (v ++ lineGap o v) false true := by
  rw [Jil.lineGap]
  split
  · next hnil =>
    obtain ⟨rfl, rfl⟩ := hnil
    obtain rfl := h.quote_of_isSpace rfl rfl
    exact .nil
  · exact h.append .blank (by simp)

theorem lineGap_all : (lineGap o v).all isBlank = true := by
  rw [lineGap]
  split
  · rfl
  · rfl

/-- The walk over a trimmed value. -/
theorem Walk.rstrip (h : Walk 0 q o (v ++ w) q' o') (hw : w.all isSpace = true) :
    ∃ o'', Walk 0 q o (rstrip v) q' o'' := by
  obtain ⟨w', hv, hw'⟩ := exists_rstrip v
  rw [hv, List.append_assoc] at h
  exact h.of_append (by rw [List.all_append, hw', hw]; rfl) (Nat.zero_le _)

/-- A trailing comment stays one after any value that is walked to its end outside quotes. -/
theorem Trailing.trim_to {tc : Comment} (h : Trailing q o block v (some tc) opens)
    (hwalk : Walk 0 q o w false o') :
    Trailing q o block (rstrip w) (some (trimTrailing (lineGap o (rstrip w)) tc)) opens := by
  obtain ⟨w', hw, hw'⟩ := exists_rstrip w
  obtain ⟨o'', hw''⟩ := (hw ▸ hwalk).of_append hw' (Nat.zero_le _)
  cases h with
  | @closed gap commentText post hne hs =>
    obtain ⟨-, through, rfl, hcut⟩ := hs.closed hne
    have htrim : Jil.rstrip (opener ++ through) = opener ++ through := rstrip_of_closer hcut
    simp only [trimTrailing, Block.map, htrim, List.map_nil]
    exact .closed hne (splits_closed hw''.lineGap rdropWhile_isBlank_rstrip lineGap_all hcut rfl)
  | @opens gap post text hs htext hpost =>
    obtain ⟨-, tail, htail, hcut⟩ := hs.opens
    have hopens : opener <+: text.first := ⟨tail, htail.symm⟩
    have htrim : Jil.rstrip text.first = opener ++ Jil.rstrip tail := by
      rw [htail]
      exact rstrip_append rfl
    obtain ⟨t, ht, -⟩ := exists_rstrip tail
    have hcut' : cut closer (Jil.rstrip tail) = Option.none := by
      rw [ht] at hcut
      exact cut_none_of_append (by decide) hcut
    refine .opens ?_ (htext.trim hopens).1 rfl
    rw [Block.map, htrim]
    exact splits_opens hw''.lineGap rdropWhile_isBlank_rstrip lineGap_all hcut'

/-- A value with a trailing comment is walked to its end outside quotes. -/
theorem Trailing.walk_value {tc : Comment} (h : Trailing q o block v (some tc) opens) :
    ∃ o', Walk 0 q o v false o' := by
  cases h with
  | closed hne hs =>
    obtain ⟨hwalk, -, hgap⟩ := hs.walk hne
    exact hwalk.of_append (all_isSpace_of_isBlank hgap) (Nat.zero_le _)
  | opens hs =>
    obtain ⟨-, tail, htail, -⟩ := hs.opens
    obtain ⟨hwalk, -, hgap⟩ := hs.walk (by simp [htail, opener])
    exact hwalk.of_append (all_isSpace_of_isBlank hgap) (Nat.zero_le _)

/-- A trailing comment stays one when the value is trimmed and the gap is one blank. -/
theorem Trailing.trim {trailing : Option Comment} (h : Trailing q o block v trailing opens) :
    Trailing q o block (rstrip v) (trailing.map (trimTrailing (lineGap o (rstrip v)))) opens := by
  cases trailing with
  | none =>
    cases h with
    | none hs =>
      obtain ⟨w, hv, hw⟩ := exists_rstrip v
      rw [hv] at hs
      exact .none (splits_none_of_append hw hs)
  | some tc =>
    obtain ⟨o', hwalk⟩ := h.walk_value
    exact h.trim_to hwalk

/-! ## Other lines -/

/-- A text that ends before a character it has not. -/
theorem prefix_of_append_cons (h : x <+: v ++ c :: t) (hc : c ∉ x) : x <+: v := by
  obtain hle | hlt := Nat.lt_or_ge v.length x.length
  · have hpre : v ++ [c] <+: x := by
      refine List.prefix_of_prefix_length_le (show v ++ [c] <+: v ++ c :: t from ⟨t, by simp⟩) h ?_
      rw [List.length_append, List.length_singleton]
      omega
    exact absurd (hpre.subset (by simp)) hc
  · exact List.prefix_of_prefix_length_le h ⟨_, rfl⟩ hlt

theorem dropWhile_append_of_not_all (h : v.all isBlank = false) :
    (v ++ w).dropWhile isBlank = v.dropWhile isBlank ++ w := by
  have hne : v.dropWhile isBlank ≠ [] := by
    intro hnil
    rw [List.dropWhile_eq_nil_iff] at hnil
    rw [List.all_eq_true.mpr hnil] at h
    cases h
  rw [List.dropWhile_append, if_neg (by simpa using hne)]

theorem not_isBlank_of_not_isSpace (h : v.all isSpace = false) : v.all isBlank = false := by
  rw [Bool.eq_false_iff] at h ⊢
  exact fun hall => h (all_isSpace_of_isBlank hall)

theorem OtherLine.of_append (h : OtherLine (v ++ w)) (hv : v.all isSpace = false) :
    OtherLine v := by
  obtain ⟨-, hhash, hcomment, hkey⟩ := h
  rw [dropWhile_append_of_not_all (not_isBlank_of_not_isSpace hv)] at hhash hcomment hkey
  refine ⟨hv, fun hp => hhash (hp.trans ⟨w, rfl⟩), fun hp => hcomment (hp.trans ⟨w, rfl⟩), ?_⟩
  cases hkv : keyOf (v.dropWhile isBlank) with
  | none => rfl
  | some p =>
    obtain ⟨key, after⟩ := p
    obtain ⟨hiskey, hv'⟩ := keyOf_eq_some.mp hkv
    have := keyOf_eq_some.mpr ⟨hiskey, show v.dropWhile isBlank ++ w = key ++ ':' :: (after ++ w) by
      rw [hv']
      simp⟩
    exact nomatch hkey.symm.trans this

theorem OtherLine.append_blank (h : OtherLine v) : OtherLine (v ++ ' ' :: t) := by
  obtain ⟨hblank, hhash, hcomment, hkey⟩ := h
  have hdrop := dropWhile_append_of_not_all (w := ' ' :: t) (not_isBlank_of_not_isSpace hblank)
  refine ⟨by rw [List.all_append, hblank]; rfl, fun hp => hhash ?_, fun hp => hcomment ?_, ?_⟩
  · rw [hdrop] at hp
    exact prefix_of_append_cons hp (by decide)
  · rw [hdrop] at hp
    exact prefix_of_append_cons hp (by decide)
  · rw [hdrop]
    cases hkv : keyOf (v.dropWhile isBlank ++ ' ' :: t) with
    | none => rfl
    | some p =>
      obtain ⟨key, after⟩ := p
      obtain ⟨hiskey, hv'⟩ := keyOf_eq_some.mp hkv
      have hspace : ' ' ∉ key ++ [':'] := by
        obtain ⟨d, ds, -, -, hall⟩ := hiskey
        rw [List.mem_append, not_or]
        exact ⟨notMem_of_all hall (by decide), by decide⟩
      have hpre : key ++ [':'] <+: v.dropWhile isBlank :=
        prefix_of_append_cons (c := ' ') (t := t) ⟨after, by rw [hv']; simp⟩ hspace
      obtain ⟨after', hafter'⟩ := hpre
      have := keyOf_eq_some.mpr ⟨hiskey, show v.dropWhile isBlank = key ++ ':' :: after' by
        rw [← hafter']
        simp⟩
      exact nomatch hkey.symm.trans this

theorem OtherLine.rstrip (h : OtherLine line) : OtherLine (rstrip line) := by
  obtain ⟨w, hw, hspace⟩ := exists_rstrip line
  have hblank := h.notBlank
  rw [hw] at h
  refine h.of_append ?_
  rw [hw, List.all_append, hspace, Bool.and_true] at hblank
  exact hblank

end Dsl41.Jil
