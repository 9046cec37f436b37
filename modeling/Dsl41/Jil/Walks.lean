import Dsl41.Jil.Grammar
import Dsl41.Jil.Pairs

/-!
# The walk over a line

The split at the trailing comment and the mask walk a line alike. `Walk` is that walk over a
beginning of a line, from a state to a state, so that what comes after the beginning can be
exchanged: whitespace at the end of a value, the gap before a comment, the text after a subject.
-/

namespace Dsl41.Jil

open Dsl41.Infra

/-- The walk over a beginning of a line: the closed comments that begin in it end in it. -/
inductive Walk : Nat → Bool → Bool → Line → Bool → Bool → Prop
  | nil {q o : Bool} : Walk 0 q o [] q o
  | skip {n : Nat} {q o q' o' : Bool} {c : Char} {u : Line} : Walk n q (isBlank c) u q' o' →
      Walk (n + 1) q o (c :: u) q' o'
  | quote {q o q' o' : Bool} {u : Line} : Walk 0 (!q) false u q' o' →
      Walk 0 q o ('"' :: u) q' o'
  | region {q' o' : Bool} {c : Char} {u through after : Line} : opener <+: c :: u →
      cut closer (u.drop 1) = some (through, after) →
      Walk (through.length + 1) false false u q' o' → Walk 0 false true (c :: u) q' o'
  | char {q o q' o' : Bool} {c : Char} {u : Line} : c ≠ '"' →
      ¬ (q = false ∧ o = true ∧ opener <+: c :: u) → Walk 0 q (isBlank c) u q' o' →
      Walk 0 q o (c :: u) q' o'

variable {n : Nat} {q o q' o' q'' o'' : Bool} {u v w l seen gap post through after : Line}
  {c : Char}

/-! ## Openers and whitespace -/

theorem opener_iff : opener <+: c :: u ↔ c = '/' ∧ ∃ t, u = '*' :: t := by
  constructor
  · rintro ⟨t, ht⟩
    obtain ⟨hc, hu⟩ := List.cons.inj ht
    exact ⟨hc.symm, t, hu.symm⟩
  · rintro ⟨rfl, t, rfl⟩
    exact ⟨t, rfl⟩

/-- An opener begins within a text unless it ends at its end. -/
theorem opener_append (hw : w.head? ≠ some '*') :
    opener <+: c :: (u ++ w) ↔ opener <+: c :: u := by
  rw [opener_iff, opener_iff]
  refine and_congr_right fun _ => ⟨?_, fun ⟨t, ht⟩ => ⟨t ++ w, by rw [ht]; rfl⟩⟩
  rintro ⟨t, ht⟩
  cases u with
  | nil => exact absurd (by rw [List.nil_append] at ht; rw [ht]; rfl) hw
  | cons d u =>
    obtain ⟨rfl, -⟩ := List.cons.inj ht
    exact ⟨u, rfl⟩

theorem ne_of_isSpace {d : Char} (hc : isSpace c = true) (hd : isSpace d = false) : c ≠ d := by
  rintro rfl
  rw [hc] at hd
  cases hd

theorem notMem_of_isSpace (h : w.all isSpace = true) (hc : isSpace c = false) : c ∉ w :=
  notMem_of_all h hc

theorem head_ne_of_isSpace (h : w.all isSpace = true) : w.head? ≠ some '*' := fun hw =>
  notMem_of_isSpace h (c := '*') (by decide) (List.mem_of_head? hw)

theorem all_isSpace_of_isBlank (h : w.all isBlank = true) : w.all isSpace = true := by
  rw [List.all_eq_true] at h ⊢
  exact fun c hc => isSpace_of_isBlank (h c hc)

/-! ## Walking on -/

theorem Walk.le_length (h : Walk n q o u q' o') : n ≤ u.length := by
  induction h with
  | nil => exact le_rfl
  | skip _ ih => exact Nat.succ_le_succ ih
  | quote => exact Nat.zero_le _
  | region => exact Nat.zero_le _
  | char => exact Nat.zero_le _

/-- The closer of a closed comment stays where it is when text is added. -/
theorem cut_drop_append (hp : opener <+: c :: u) (h : cut closer (u.drop 1) = some (through, after)) :
    cut closer ((u ++ w).drop 1) = some (through, after ++ w) := by
  obtain ⟨-, t, rfl⟩ := opener_iff.mp hp
  exact cut_append (by decide) h

theorem Walk.append (h : Walk n q o u q' o') (h' : Walk 0 q' o' w q'' o'')
    (hw : w.head? ≠ some '*') : Walk n q o (u ++ w) q'' o'' := by
  induction h with
  | nil => exact h'
  | skip _ ih => exact .skip (ih h')
  | quote _ ih => exact .quote (ih h')
  | region hp hcut _ ih =>
    exact .region ((opener_append hw).mpr hp) (cut_drop_append hp hcut) (ih h')
  | char hc hp _ ih =>
    refine .char hc (fun ⟨hq, ho, hop⟩ => hp ⟨hq, ho, ?_⟩) (ih h')
    exact (opener_append hw).mp hop

/-- The walk into a comment that the whole line closes. -/
theorem Walk.region_of_walked {m rest : Line} (hp : opener <+: c :: rest)
    (hcut : cut closer (rest.drop 1) = some (through, after)) (hrest : rest = u ++ m)
    (h : Walk (through.length + 1) false false u q' o') : Walk 0 false true (c :: u) q' o' := by
  obtain ⟨hc, t, rfl⟩ := opener_iff.mp hp
  have hcut' : cut closer t = some (through, after) := hcut
  -- the comment is passed, so its closer is in what is walked
  obtain ⟨d, u, rfl⟩ := List.exists_cons_of_ne_nil
    (List.ne_nil_of_length_pos (Nat.lt_of_lt_of_le (Nat.succ_pos _) h.le_length))
  obtain ⟨rfl, rfl⟩ := List.cons.inj hrest
  have hle := h.le_length
  rw [List.length_cons] at hle
  obtain ⟨x, rfl⟩ : through <+: u := List.prefix_of_prefix_length_le
    ⟨after, (cut_eq_some hcut').1⟩ ⟨m, rfl⟩ (Nat.le_of_succ_le_succ hle)
  exact .region (opener_iff.mpr ⟨hc, _, rfl⟩) (cut_through (by decide) hcut' x) h

theorem Walk.char_of_walked {m rest : Line} (hc : c ≠ '"')
    (hp : ¬ (q = false ∧ o = true ∧ opener <+: c :: rest)) (hrest : rest = u ++ m)
    (h : Walk 0 q (isBlank c) u q' o') : Walk 0 q o (c :: u) q' o' := by
  refine .char hc (fun hall => hp ⟨hall.1, hall.2.1, ?_⟩) h
  rw [hrest]
  exact hall.2.2.trans ⟨m, rfl⟩

/-- A blank opens the place for a comment. -/
theorem Walk.blank : Walk 0 q o [' '] q true :=
  .char (by decide) (fun h => absurd h.2.2 (by decide)) .nil

/-! ## The steps of the walk -/

theorem marker_eq_true (hp : opener <+: c :: u) :
    (!false && true && opener.isPrefixOf (c :: u)) = true :=
  List.isPrefixOf_iff_prefix.mpr hp

theorem marker_eq_false (hp : ¬ (q = false ∧ o = true ∧ opener <+: c :: u)) :
    (!q && o && opener.isPrefixOf (c :: u)) = false := by
  rw [Bool.eq_false_iff]
  intro hall
  simp only [Bool.and_eq_true, Bool.not_eq_true', List.isPrefixOf_iff_prefix] at hall
  exact hp ⟨hall.1.1, hall.1.2, hall.2⟩

theorem splitFrom_char (hc : c ≠ '"') (hp : ¬ (q = false ∧ o = true ∧ opener <+: c :: u)) :
    splitFrom 0 q o seen (c :: u) = splitFrom 0 q (isBlank c) (seen ++ [c]) u := by
  rw [splitFrom, if_neg hc, marker_eq_false hp]
  rfl

theorem splitFrom_quote :
    splitFrom 0 q o seen ('"' :: u) = splitFrom 0 (!q) false (seen ++ ['"']) u := by
  rw [splitFrom, if_pos rfl]

/-- A closed comment: it ends the line, or it is passed. -/
theorem splitFrom_region (hp : opener <+: c :: u)
    (hcut : cut closer (u.drop 1) = some (through, after)) :
    splitFrom 0 false true seen (c :: u) =
      if after.all isSpace then splitAt seen (opener ++ through) after false
      else splitFrom (through.length + 1) false false (seen ++ [c]) u := by
  obtain ⟨rfl, -⟩ := opener_iff.mp hp
  rw [splitFrom, if_neg (by simp), if_pos (marker_eq_true hp), hcut]

theorem splitFrom_open (hp : opener <+: c :: u) (hcut : cut closer (u.drop 1) = none) :
    splitFrom 0 false true seen (c :: u) = splitAt seen (c :: u) [] true := by
  obtain ⟨rfl, -⟩ := opener_iff.mp hp
  rw [splitFrom, if_neg (by simp), if_pos (marker_eq_true hp), hcut]

theorem maskFrom_char (hc : c ≠ '"') (hp : ¬ (q = false ∧ o = true ∧ opener <+: c :: u)) :
    maskFrom 0 q o (c :: u) = c :: maskFrom 0 q (isBlank c) u := by
  rw [maskFrom, if_neg hc, marker_eq_false hp]
  rfl

theorem maskFrom_quote : maskFrom 0 q o ('"' :: u) = '"' :: maskFrom 0 (!q) false u := by
  rw [maskFrom, if_pos rfl]

theorem maskFrom_region (hp : opener <+: c :: u)
    (hcut : cut closer (u.drop 1) = some (through, after)) :
    maskFrom 0 false true (c :: u) = maskFill :: maskFrom (through.length + 1) false false u := by
  obtain ⟨rfl, -⟩ := opener_iff.mp hp
  rw [maskFrom, if_neg (by simp), if_pos (marker_eq_true hp), hcut]

/-- The split of a line is the split after a walk. -/
theorem splitFrom_walk (seen : Line) (h : Walk n q o u q' o') (hw : w.all isSpace = false)
    (hhead : w.head? ≠ some '*') :
    splitFrom n q o seen (u ++ w) = splitFrom 0 q' o' (seen ++ u) w := by
  induction h generalizing seen with
  | nil => rw [List.nil_append, List.append_nil]
  | skip _ ih =>
    rw [List.cons_append, splitFrom, ih, List.append_assoc, List.singleton_append]
  | quote _ ih =>
    rw [List.cons_append, splitFrom_quote, ih, List.append_assoc, List.singleton_append]
  | @region q' o' c u through after hp hcut _ ih =>
    rw [List.cons_append, splitFrom_region ((opener_append hhead).mpr hp)
      (cut_drop_append hp hcut), List.all_append, hw, Bool.and_false, if_neg (by simp), ih,
      List.append_assoc, List.singleton_append]
  | char hc hp _ ih =>
    rw [List.cons_append, splitFrom_char hc (by rwa [opener_append hhead]), ih,
      List.append_assoc, List.singleton_append]

/-- The mask of a line is the mask of what is walked, and the mask of the rest. -/
theorem maskFrom_walk (h : Walk n q o u q' o') (hhead : w.head? ≠ some '*') :
    maskFrom n q o (u ++ w) = maskFrom n q o u ++ maskFrom 0 q' o' w := by
  induction h with
  | nil => rfl
  | skip _ ih => rw [List.cons_append, maskFrom, maskFrom, ih, List.cons_append]
  | quote _ ih => rw [List.cons_append, maskFrom_quote, maskFrom_quote, ih, List.cons_append]
  | region hp hcut _ ih =>
    rw [List.cons_append, maskFrom_region hp hcut, maskFrom_region
      ((opener_append hhead).mpr hp) (cut_drop_append hp hcut), ih, List.cons_append]
  | char hc hp _ ih =>
    rw [List.cons_append, maskFrom_char hc hp,
      maskFrom_char hc (by rwa [opener_append hhead]), ih, List.cons_append]

/-! ## Whitespace at the end -/

theorem Walk.quote_of_isSpace (h : Walk n q o w q' o') (hn : n = 0) (hw : w.all isSpace = true) :
    q' = q := by
  induction h with
  | nil => rfl
  | skip => cases hn
  | quote => exact absurd (List.all_cons ▸ hw) (by simp [show isSpace '"' = false by decide])
  | region hp =>
    obtain ⟨rfl, -⟩ := opener_iff.mp hp
    exact absurd (List.all_cons ▸ hw) (by simp [show isSpace '/' = false by decide])
  | char _ _ _ ih =>
    rw [List.all_cons, Bool.and_eq_true] at hw
    exact ih rfl hw.2

/-- A walk over a text is a walk over it without whitespace at its end. -/
theorem Walk.of_append (h : Walk n q o (u ++ w) q' o') (hw : w.all isSpace = true)
    (hn : n ≤ u.length) : ∃ o'', Walk n q o u q' o'' := by
  induction u generalizing n q o with
  | nil =>
    obtain rfl := Nat.le_zero.mp hn
    obtain rfl := h.quote_of_isSpace rfl hw
    exact ⟨o, .nil⟩
  | cons c u ih =>
    have hhead := head_ne_of_isSpace hw
    cases h with
    | skip h =>
      obtain ⟨o'', h⟩ := ih h (Nat.le_of_succ_le_succ hn)
      exact ⟨o'', .skip h⟩
    | quote h =>
      obtain ⟨o'', h⟩ := ih h (Nat.zero_le _)
      exact ⟨o'', .quote h⟩
    | @region _ _ _ _ through after hp hcut h =>
      have hp' := (opener_append hhead).mp hp
      obtain ⟨-, t, rfl⟩ := opener_iff.mp hp'
      obtain ⟨after', -, hcut'⟩ := cut_of_append (show closer = ['*'] ++ ['/'] from rfl)
        (notMem_of_isSpace hw (by decide)) (show cut closer (t ++ w) = some (through, after) from hcut)
      have hlen : through.length + 1 ≤ ('*' :: t).length := by
        have := congrArg List.length (cut_eq_some hcut').1
        rw [List.length_append] at this
        rw [List.length_cons]
        omega
      obtain ⟨o'', h⟩ := ih h hlen
      exact ⟨o'', .region hp' hcut' h⟩
    | char hc hp h =>
      obtain ⟨o'', h⟩ := ih h (Nat.zero_le _)
      refine ⟨o'', .char hc (fun hall => hp ⟨hall.1, hall.2.1, ?_⟩) h⟩
      exact (opener_append hhead).mpr hall.2.2

/-! ## The walk of a split -/

/-- What the split finds after its walk: nothing, or a marker. -/
inductive WalkEnd (seen : Line) : Line → Bool → Bool → TrailingSplit → Prop
  | none {q o : Bool} : WalkEnd seen [] q o { value := seen }
  | closed {m through post : Line} : opener <+: m → cut closer (m.drop 2) = some (through, post) →
      post.all isSpace = true →
      WalkEnd seen m false true (splitAt seen (opener ++ through) post false)
  | opens {m : Line} : opener <+: m → cut closer (m.drop 2) = none →
      WalkEnd seen m false true (splitAt seen m [] true)

/-- Every split is a walk to its marker, or over the whole line. -/
theorem exists_walk (seen : Line) (hn : n ≤ l.length) :
    ∃ u m q' o', l = u ++ m ∧ Walk n q o u q' o' ∧
      WalkEnd (seen ++ u) m q' o' (splitFrom n q o seen l) := by
  induction l generalizing n q o seen with
  | nil =>
    obtain rfl := Nat.le_zero.mp hn
    exact ⟨[], [], q, o, rfl, .nil, by rw [List.append_nil]; exact .none⟩
  | cons c rest ih =>
    -- what the walk over the rest gives, `c` put before it
    have hnext : ∀ {n' q₁ o₁ r}, n' ≤ rest.length → r = splitFrom n' q₁ o₁ (seen ++ [c]) rest →
        (∀ {u m q' o'}, rest = u ++ m → Walk n' q₁ o₁ u q' o' → Walk n q o (c :: u) q' o') →
        ∃ u m q' o', c :: rest = u ++ m ∧ Walk n q o u q' o' ∧ WalkEnd (seen ++ u) m q' o' r := by
      rintro n' q₁ o₁ _ hn' rfl hstep
      obtain ⟨u, m, q', o', hrest, hwalk, hend⟩ := ih (seen ++ [c]) (q := q₁) (o := o₁) hn'
      refine ⟨c :: u, m, q', o', by rw [hrest]; rfl, hstep hrest hwalk, ?_⟩
      rwa [List.append_assoc, List.singleton_append] at hend
    cases n with
    | succ n =>
      exact hnext (Nat.le_of_succ_le_succ hn) (by rw [splitFrom]) fun _ h => .skip h
    | zero =>
      by_cases hc : c = '"'
      · subst hc
        exact hnext (Nat.zero_le _) splitFrom_quote fun _ h => .quote h
      · by_cases hp : q = false ∧ o = true ∧ opener <+: c :: rest
        · obtain ⟨rfl, rfl, hp⟩ := hp
          have hdrop : (c :: rest).drop 2 = rest.drop 1 := rfl
          cases hcut : cut closer (rest.drop 1) with
          | none =>
            rw [splitFrom_open hp hcut]
            exact ⟨[], c :: rest, false, true, rfl, .nil, by rw [List.append_nil]; exact .opens hp hcut⟩
          | some p =>
            obtain ⟨through, after⟩ := p
            by_cases hafter : after.all isSpace
            · rw [splitFrom_region hp hcut, if_pos hafter]
              exact ⟨[], c :: rest, false, true, rfl, .nil,
                by rw [List.append_nil]; exact .closed hp hcut hafter⟩
            · obtain ⟨-, t, rfl⟩ := opener_iff.mp hp
              have hcut' : cut closer t = some (through, after) := hcut
              have hlen := congrArg List.length (cut_eq_some hcut').1
              rw [List.length_append] at hlen
              exact hnext (by rw [List.length_cons]; omega)
                (by rw [splitFrom_region hp hcut, if_neg hafter]) (.region_of_walked hp hcut)
        · exact hnext (Nat.zero_le _) (splitFrom_char hc hp) (.char_of_walked hc hp)

end Dsl41.Jil
