import Dsl41.Jil.Elements
import Dsl41.Jil.Walks

/-!
# Trimmed lines

The canonical mode drops the whitespace at the end of a line and the gap before a comment. What a
line is, how it splits and which pairs stand in it stay as they were.
-/

namespace Dsl41.Jil

open Dsl41.Infra

variable {n : Nat} {q o q' o' q'' o'' : Bool} {u v w x t l gap post through after : Line}
  {c : Char}

/-! ## Whitespace at the end -/

theorem exists_rstrip (l : Line) : ∃ w, l = rstrip l ++ w ∧ w.all isSpace = true := by
  refine ⟨l.rtakeWhile isSpace, List.rdropWhile_append_rtakeWhile.symm, ?_⟩
  rw [List.all_eq_true]
  exact fun c hc => List.mem_rtakeWhile_imp hc

theorem rdropWhile_append {p : Char → Bool} (hw : ∀ c ∈ w, p c = true) :
    (x ++ w).rdropWhile p = x.rdropWhile p := by
  rw [List.rdropWhile, List.reverse_append, List.dropWhile_append_of_pos, List.rdropWhile]
  simpa using hw

theorem rstrip_append_space (hw : w.all isSpace = true) : rstrip (x ++ w) = rstrip x :=
  rdropWhile_append (List.all_eq_true.mp hw)

@[simp] theorem rstrip_nil : rstrip [] = [] := rfl

@[simp] theorem rstrip_rstrip : rstrip (rstrip l) = rstrip l := List.rdropWhile_idempotent isSpace l

theorem rstrip_eq_nil : rstrip l = [] ↔ l.all isSpace = true := by
  rw [rstrip, List.rdropWhile_eq_nil_iff, List.all_eq_true]

theorem rstrip_concat (hc : isSpace c = false) : rstrip (x ++ [c]) = x ++ [c] :=
  List.rdropWhile_concat_neg _ _ _ (by simp [hc])

/-- After a trimmed text only what follows it is trimmed. -/
theorem rstrip_append (hx : rstrip x = x) : rstrip (x ++ t) = x ++ rstrip t := by
  obtain ⟨w, ht, hw⟩ := exists_rstrip t
  conv => lhs; rw [ht]
  rw [← List.append_assoc, rstrip_append_space hw]
  cases h : rstrip t using List.reverseRecOn with
  | nil => rw [List.append_nil, hx]
  | append_singleton init d _ =>
    have hd : isSpace d = false := by
      have hne : rstrip t ≠ [] := by simp [h]
      have hlast := List.rdropWhile_last_not isSpace t hne
      simpa [show t.rdropWhile isSpace = init ++ [d] from h] using hlast
    rw [← List.append_assoc, rstrip_concat hd]

theorem rstrip_begins : rstrip l <+: l := List.rdropWhile_prefix isSpace l

/-- Text that ends with a closer is trimmed. -/
theorem rstrip_of_closer (h : cut closer u = some (u, [])) : rstrip (x ++ u) = x ++ u := by
  obtain ⟨-, before, hu⟩ := cut_eq_some h
  have hsplit : x ++ u = x ++ before ++ ['*'] ++ ['/'] := by
    rw [hu]
    simp [closer]
  rw [hsplit, rstrip_concat (by decide)]

/-- A trimmed text ends with no blank. -/
theorem rdropWhile_isBlank_rstrip : (rstrip v).rdropWhile isBlank = rstrip v := by
  rw [List.rdropWhile_eq_self_iff]
  intro hne hblank
  have hlast := List.rdropWhile_last_not isSpace v hne
  exact hlast (isSpace_of_isBlank hblank)

theorem NoGap.rstrip (h : NoGap v) : NoGap (rstrip v) := by
  intro c hc
  obtain ⟨w, hw, -⟩ := exists_rstrip v
  refine h c ?_
  rw [hw]
  rw [Option.mem_def] at hc ⊢
  rw [List.head?_append, hc]
  rfl

/-! ## The parts of a split -/

theorem splitAt_gap (hv : v.rdropWhile isBlank = v) (hgap : gap.all isBlank = true)
    (commentText post : Line) (opens : Bool) :
    splitAt (v ++ gap) commentText post opens = ⟨v, gap, commentText, post, opens⟩ := by
  have hv' : (v ++ gap).rdropWhile isBlank = v := by
    rw [rdropWhile_append (List.all_eq_true.mp hgap), hv]
  have hgap' : (v ++ gap).rtakeWhile isBlank = gap := by
    have h := List.rdropWhile_append_rtakeWhile (p := isBlank) (l := v ++ gap)
    rw [hv'] at h
    exact List.append_cancel_left h
  rw [splitAt, hv', hgap']

/-- A closed comment after a walk is the trailing comment. -/
theorem splits_closed (h : Walk 0 q o (v ++ gap) false true) (hv : v.rdropWhile isBlank = v)
    (hgap : gap.all isBlank = true) (hcut : cut closer through = some (through, []))
    (hpost : post.all isSpace = true) : Splits q o v gap (opener ++ through) post false := by
  have hp : opener <+: '/' :: ('*' :: (through ++ post)) := ⟨_, rfl⟩
  have hcut' : cut closer (('*' :: (through ++ post)).drop 1) = some (through, post) :=
    cut_through (by decide) hcut post
  have hwalk := splitFrom_walk [] h (w := '/' :: '*' :: (through ++ post))
    (by simp [show isSpace '/' = false by decide]) (by simp)
  rw [List.nil_append, splitFrom_region hp hcut', if_pos hpost, splitAt_gap hv hgap] at hwalk
  rw [Splits, splitTrailingComment, ← hwalk]
  simp [opener]

/-- A comment without a closer after a walk is the trailing comment. -/
theorem splits_opens (h : Walk 0 q o (v ++ gap) false true) (hv : v.rdropWhile isBlank = v)
    (hgap : gap.all isBlank = true) (hcut : cut closer t = none) :
    Splits q o v gap (opener ++ t) [] true := by
  have hp : opener <+: '/' :: ('*' :: t) := ⟨_, rfl⟩
  have hcut' : cut closer (('*' :: t).drop 1) = none := hcut
  have hwalk := splitFrom_walk [] h (w := '/' :: '*' :: t)
    (by simp [show isSpace '/' = false by decide]) (by simp)
  rw [List.nil_append, splitFrom_open hp hcut', splitAt_gap hv hgap] at hwalk
  simpa [Splits, splitTrailingComment, opener] using hwalk

/-- The walk of a split with no comment. -/
theorem Splits.walk_none (h : Splits q o v [] [] [] false) : ∃ q' o', Walk 0 q o v q' o' := by
  rw [Splits, List.append_nil, List.append_nil, List.append_nil, splitTrailingComment] at h
  obtain ⟨u, m, q', o', hv, hwalk, hend⟩ := exists_walk (q := q) (o := o) []
    (Nat.zero_le v.length)
  rw [h] at hend
  generalize hr : (⟨v, [], [], [], false⟩ : TrailingSplit) = r at hend
  cases hend with
  | none => exact ⟨q', o', by rwa [hv, List.append_nil]⟩
  | closed => simp [splitAt, opener] at hr
  | opens => simp [splitAt] at hr

/-- The walk of a split with a comment ends where it begins. -/
theorem Splits.walk {commentText : Line} {opens : Bool}
    (h : Splits q o v gap commentText post opens) (hne : commentText ≠ []) :
    Walk 0 q o (v ++ gap) false true ∧ v.rdropWhile isBlank = v ∧ gap.all isBlank = true := by
  rw [Splits, splitTrailingComment] at h
  obtain ⟨u, m, q', o', -, hwalk, hend⟩ := exists_walk (q := q) (o := o) []
    (Nat.zero_le (v ++ gap ++ commentText ++ post).length)
  rw [h] at hend
  have hparts : u.rdropWhile isBlank = v → u.rtakeWhile isBlank = gap →
      q' = false → o' = true → Walk 0 q o (v ++ gap) false true ∧
        v.rdropWhile isBlank = v ∧ gap.all isBlank = true := by
    rintro rfl rfl rfl rfl
    rw [List.rdropWhile_append_rtakeWhile]
    refine ⟨hwalk, List.rdropWhile_idempotent isBlank u, ?_⟩
    rw [List.all_eq_true]
    exact fun c hc => List.mem_rtakeWhile_imp hc
  generalize hr : (⟨v, gap, commentText, post, opens⟩ : TrailingSplit) = r at hend
  cases hend with
  | none =>
    cases hr
    exact absurd rfl hne
  | closed =>
    simp only [splitAt, TrailingSplit.mk.injEq] at hr
    exact hparts hr.1.symm hr.2.1.symm rfl rfl
  | opens =>
    simp only [splitAt, TrailingSplit.mk.injEq] at hr
    exact hparts hr.1.symm hr.2.1.symm rfl rfl

theorem cut_none_append (hw : '/' ∉ w) (h : cut closer l = none) : cut closer (l ++ w) = none := by
  cases hcut : cut closer (l ++ w) with
  | none => rfl
  | some p =>
    obtain ⟨after, -, hl⟩ := cut_of_append (show closer = ['*'] ++ ['/'] from rfl) hw hcut
    exact nomatch h.symm.trans hl

/-- A line that splits at no comment still does without the whitespace at its end. -/
theorem splits_none_of_append (hw : w.all isSpace = true)
    (h : Splits q o (u ++ w) [] [] [] false) : Splits q o u [] [] [] false := by
  have hslash : '/' ∉ w := notMem_of_isSpace hw (by decide)
  rw [Splits, List.append_nil, List.append_nil, List.append_nil, splitTrailingComment] at h ⊢
  obtain ⟨a, m, q', o', hu, hwalk, hend⟩ := exists_walk (q := q) (o := o) []
    (Nat.zero_le u.length)
  rw [List.nil_append] at hend
  generalize hr : splitFrom 0 q o [] u = r at hend
  -- a marker in the shorter line is one in the longer line
  have hmarker : ∀ t, m = opener ++ t → q' = false → o' = true →
      splitFrom 0 q o [] (u ++ w) = splitFrom 0 false true a ('/' :: '*' :: (t ++ w)) := by
    rintro t rfl rfl rfl
    have := splitFrom_walk [] hwalk (w := opener ++ t ++ w)
      (by simp [opener, show isSpace '/' = false by decide]) (by simp [opener])
    rw [hu, List.append_assoc, this]
    simp [opener]
  cases hend with
  | none => rw [hu, List.append_nil]
  | @closed _ through post hp hcut hpost =>
    obtain ⟨t, rfl⟩ := hp
    have hcut' : cut closer t = some (through, post) := hcut
    have hp' : opener <+: '/' :: '*' :: (t ++ w) := ⟨_, rfl⟩
    rw [hmarker t rfl rfl rfl, splitFrom_region hp' (cut_append (l := t) (by decide) hcut'),
      if_pos (by rw [List.all_append, hpost, hw]; rfl)] at h
    simp [splitAt, opener] at h
  | opens hp hcut =>
    obtain ⟨t, rfl⟩ := hp
    have hcut' : cut closer t = none := hcut
    have hp' : opener <+: '/' :: '*' :: (t ++ w) := ⟨_, rfl⟩
    rw [hmarker t rfl rfl rfl, splitFrom_open hp' (cut_none_append (l := t) hslash hcut')] at h
    simp [splitAt] at h

/-- No comment opens in what is walked. -/
theorem Walk.not_opens (h : Walk n q o l q' o') (seen : Line) :
    (splitFrom n q o seen l).opensComment = false := by
  induction h generalizing seen with
  | nil => rfl
  | skip _ ih =>
    rw [splitFrom]
    exact ih _
  | quote _ ih =>
    rw [splitFrom_quote]
    exact ih _
  | region hp hcut _ ih =>
    rw [splitFrom_region hp hcut]
    split
    · rfl
    · exact ih _
  | char hc hp _ ih =>
    rw [splitFrom_char hc hp]
    exact ih _

/-! ## Pairs -/

variable {key x y : Line} {st : Nat} {m : InlinePair} {p : Line × Line}

theorem noGap_of_isKey (h : IsKey key) : NoGap (key ++ t) := by
  obtain ⟨d, ds, rfl, hd, -⟩ := h
  intro c hc
  obtain rfl := Option.some.inj hc
  by_contra hblank
  rw [Bool.not_eq_false, isBlank, Bool.or_eq_true, decide_eq_true_eq, decide_eq_true_eq] at hblank
  obtain rfl | rfl := hblank
  · exact absurd hd (by decide)
  · exact absurd hd (by decide)

theorem inlineAt_eq_some {gap : Line} : inlineAt l = some (gap, key) ↔
    gap.all isBlank = true ∧ IsKey key ∧ ∃ after, l = gap ++ (key ++ ':' :: after) := by
  rw [inlineAt, Option.map_eq_some_iff]
  constructor
  · rintro ⟨⟨key', after⟩, hkey, hp⟩
    cases hp
    obtain ⟨hiskey, hdrop⟩ := keyOf_eq_some.mp hkey
    exact ⟨List.all_takeWhile, hiskey, after, by rw [← hdrop, List.takeWhile_append_dropWhile]⟩
  · rintro ⟨hgap, hkey, after, rfl⟩
    obtain ⟨htake, hdrop⟩ := takeWhile_gap hgap (noGap_of_isKey (t := ':' :: after) hkey)
    exact ⟨(key, after), by rw [hdrop]; exact keyOf_eq_some.mpr ⟨hkey, rfl⟩, by rw [htake]⟩

theorem inlineAt_append (h : inlineAt l = some p) : inlineAt (l ++ w) = some p := by
  obtain ⟨gap, key⟩ := p
  obtain ⟨hgap, hkey, after, rfl⟩ := inlineAt_eq_some.mp h
  exact inlineAt_eq_some.mpr ⟨hgap, hkey, after ++ w, by simp⟩

/-- Text without a colon adds no pair. -/
theorem inlineAt_of_append (hw : ':' ∉ w) (h : inlineAt (l ++ w) = some p) :
    inlineAt l = some p := by
  obtain ⟨gap, key⟩ := p
  obtain ⟨hgap, hkey, after, hl⟩ := inlineAt_eq_some.mp h
  have hl' : l ++ w = (gap ++ key ++ [':']) ++ after := by simpa using hl
  refine inlineAt_eq_some.mpr ⟨hgap, hkey, ?_⟩
  obtain ⟨a, ha, hwa⟩ | ⟨a, ha, -⟩ := List.append_eq_append_iff.mp hl'
  · cases a using List.reverseRecOn with
    | nil => exact ⟨[], by simpa using ha.symm⟩
    | append_singleton init d _ =>
      rw [← List.append_assoc] at ha
      obtain ⟨-, hd⟩ := List.append_inj' ha rfl
      refine absurd ?_ hw
      rw [hwa]
      simp [← List.singleton_inj.mp hd]
  · exact ⟨a, by rw [ha]; simp⟩

theorem findInlineFrom_none_of_append (h : findInlineFrom st q (x ++ y) = none) :
    findInlineFrom st q x = none := by
  induction x generalizing st q with
  | nil => rfl
  | cons c x ih =>
    rw [List.cons_append, findInlineFrom] at h
    rw [findInlineFrom]
    split at h
    · cases h
    · next hat =>
      have hat' : (if isBlank c && !q then inlineAt (c :: x) else none) = none := by
        split
        · next hc =>
          rw [if_pos hc] at hat
          by_contra hsome
          obtain ⟨p, hp⟩ := Option.ne_none_iff_exists'.mp hsome
          cases hat.symm.trans (inlineAt_append (w := y) hp)
        · rfl
      rw [hat']
      exact ih h

theorem findInlineFrom_append_none (hy : ':' ∉ y) (h : findInlineFrom st q x = none) :
    findInlineFrom st q (x ++ y) = none := by
  have hat : ∀ {c : Char} {l : Line} {q : Bool}, ':' ∉ y →
      (if isBlank c && !q then inlineAt (c :: l) else none) = none →
      (if isBlank c && !q then inlineAt (c :: (l ++ y)) else none) = none := by
    intro c l q hy h
    split at h
    · next hc =>
      rw [if_pos hc]
      by_contra hsome
      obtain ⟨p, hp⟩ := Option.ne_none_iff_exists'.mp hsome
      exact nomatch h.symm.trans (inlineAt_of_append (l := c :: l) hy hp)
    · next hc => rw [if_neg hc]
  induction x generalizing st q with
  | nil =>
    rw [List.nil_append]
    clear h hat
    induction y generalizing st q with
    | nil => rfl
    | cons c y ih =>
      rw [findInlineFrom]
      have hnone : (if isBlank c && !q then inlineAt (c :: y) else none) = none := by
        split
        · by_contra hsome
          obtain ⟨⟨gap, key⟩, hp⟩ := Option.ne_none_iff_exists'.mp hsome
          obtain ⟨-, -, after, hl⟩ := inlineAt_eq_some.mp hp
          exact hy (by rw [hl]; simp)
        · rfl
      rw [hnone]
      exact ih fun hm => hy (List.mem_cons_of_mem _ hm)
  | cons c x ih =>
    rw [findInlineFrom] at h
    rw [List.cons_append, findInlineFrom]
    split at h
    · cases h
    · next hnone =>
      rw [hat hy hnone]
      exact ih h

/-- Before the first pair there is none. -/
theorem findInlineFrom_before (h : findInlineFrom st q (x ++ y) = some m)
    (hm : m.start = st + x.length) : findInlineFrom st q x = none := by
  induction x generalizing st q with
  | nil => rfl
  | cons c x ih =>
    rw [List.cons_append, findInlineFrom] at h
    rw [findInlineFrom]
    split at h
    · cases h
      simp at hm
    · next hnone =>
      have hnone' : (if isBlank c && !q then inlineAt (c :: x) else none) = none := by
        split
        · next hc =>
          rw [if_pos hc] at hnone
          by_contra hsome
          obtain ⟨p, hp⟩ := Option.ne_none_iff_exists'.mp hsome
          cases hnone.symm.trans (inlineAt_append (w := y) hp)
        · rfl
      rw [hnone']
      exact ih h (by rw [hm, List.length_cons]; omega)

theorem findInlineFrom_fill :
    findInlineFrom st q (maskFill :: l) = findInlineFrom (st + 1) q l := by
  simp [findInlineFrom, maskFill, show isBlank '*' = false by decide]

theorem findInlineFrom_quote :
    findInlineFrom st q ('"' :: l) = findInlineFrom (st + 1) (!q) l := by
  simp [findInlineFrom, show isBlank '"' = false by decide]

/-- A pair of a walked line begins outside comments and quotes. -/
theorem Walk.pair (h : Walk n q o l q' o') (hm : findInlineFrom st q (maskFrom n q o l) = some m) :
    ∃ u w o'', l = u ++ w ∧ Walk n q o u false o'' ∧ m.start = st + u.length := by
  have hnext : ∀ {c : Char} {l : Line} {st n n' : Nat} {q q₁ o o₁ : Bool},
      (∃ u w o'', l = u ++ w ∧ Walk n' q₁ o₁ u false o'' ∧ m.start = st + 1 + u.length) →
      (∀ {u w o''}, l = u ++ w → Walk n' q₁ o₁ u false o'' → Walk n q o (c :: u) false o'') →
      ∃ u w o'', c :: l = u ++ w ∧ Walk n q o u false o'' ∧ m.start = st + u.length := by
    rintro c l st n n' q q₁ o o₁ ⟨u, w, o'', rfl, hwalk, hstart⟩ hstep
    exact ⟨c :: u, w, o'', rfl, hstep rfl hwalk, by rw [hstart, List.length_cons]; omega⟩
  induction h generalizing st with
  | nil => cases hm
  | skip _ ih =>
    rw [maskFrom, findInlineFrom_fill] at hm
    exact hnext (ih hm) fun _ h => .skip h
  | quote _ ih =>
    rw [maskFrom_quote, findInlineFrom_quote] at hm
    exact hnext (ih hm) fun _ h => .quote h
  | region hp hcut _ ih =>
    rw [maskFrom_region hp hcut, findInlineFrom_fill] at hm
    exact hnext (ih hm) (.region_of_walked hp hcut)
  | @char q o _ _ c u hc hp _ ih =>
    rw [maskFrom_char hc hp, findInlineFrom] at hm
    split at hm
    · next hat =>
      cases hm
      split at hat
      · next hblank =>
        rw [Bool.and_eq_true, Bool.not_eq_true'] at hblank
        obtain ⟨-, rfl⟩ := hblank
        exact ⟨[], c :: u, o, rfl, .nil, rfl⟩
      · cases hat
    · rw [show (c == '"') = false by simpa using hc, Bool.xor_false] at hm
      exact hnext (ih hm) (.char_of_walked hc hp)

/-! ## Trimmed values -/

/-- A value without the whitespace at its end holds no pair where the value holds none. -/
theorem findInlinePair_of_append (h : Walk 0 q o u q' o') (hw : w.head? ≠ some '*')
    (hnone : findInlineFrom st q'' (maskFrom 0 q o (u ++ w)) = none) :
    findInlineFrom st q'' (maskFrom 0 q o u) = none := by
  rw [maskFrom_walk h hw] at hnone
  exact findInlineFrom_none_of_append hnone

theorem oddQuotes_of_append (h : Walk 0 q o u q' o') (hw : w.all isSpace = true) :
    oddQuotes (maskFrom 0 q o (u ++ w)) = oddQuotes (maskFrom 0 q o u) := by
  have hcount : (maskFrom 0 q' o' w).count '"' = 0 := by
    refine List.count_eq_zero.mpr fun hm => ?_
    obtain ⟨a, b, hab⟩ := List.append_of_mem hm
    have hmasks := maskFrom_masks 0 q' o' w
    rw [hab] at hmasks
    obtain ⟨w₁, w₂, rfl, -, h₂⟩ := masks_append hmasks
    obtain ⟨d, rest, hd, -, rfl⟩ := List.forall₂_cons_right_iff.mp h₂
    have hd' : d = '"' := hd.elim (fun hd => absurd hd (by decide)) Eq.symm
    exact notMem_of_isSpace hw (c := '"') (by decide) (by simp [hd'])
  rw [maskFrom_walk h (head_ne_of_isSpace hw), oddQuotes, oddQuotes, List.count_append, hcount,
    Nat.add_zero]

end Dsl41.Jil
