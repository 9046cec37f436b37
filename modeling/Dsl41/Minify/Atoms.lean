import Dsl41.Minify.Spelling

/-!
# The atoms of a text

An atom is a keyword, its parentheses and, for an exit code and a global, a comparison. What the parser
reads is spelled so, and what is spelled so is read so wherever it ends.
-/

namespace Dsl41.Minify

open Infra Conditions

section Atoms

variable {s rest rest' u blanks : List Char} {c : Char} {total : Nat}

/-! ## Lookbacks -/

theorem takeWhile_stop {p : Char → Bool} (hc : p c = false) : (u ++ c :: s).takeWhile p = u.takeWhile p := by
  induction u with
  | nil => rw [List.nil_append, List.takeWhile_cons, hc, if_neg Bool.false_ne_true, List.takeWhile_nil]
  | cons d u ih => rw [List.cons_append, List.takeWhile_cons, List.takeWhile_cons, ih]

theorem upTo_stop {bound : Nat} {p : Char → Bool} (hc : p c = false) :
    upTo bound p (u ++ c :: s) = (upTo bound p u).map fun taken => (taken.1, taken.2 ++ c :: s) := by
  have hrun : ((u ++ c :: s).take bound).takeWhile p = (u.take bound).takeWhile p := by
    rw [List.take_append]
    cases bound - u.length with
    | zero => rw [List.take_zero, List.append_nil]
    | succ k => rw [List.take_succ_cons, takeWhile_stop hc]
  have hlength : ((u.take bound).takeWhile p).length ≤ u.length :=
    (List.takeWhile_sublist p).length_le.trans (List.take_sublist bound u).length_le
  rw [upTo, upTo, hrun, List.drop_append_of_le_length hlength]
  split_ifs <;> rfl

/-- A lookback stops before a character that none has. -/
theorem lookbackToken_stop (hc : isDecimal c = false ∧ c ≠ '.' ∧ c ≠ '\\' ∧ c ≠ ':') :
    lookbackToken (u ++ c :: s) = (lookbackToken u).map fun taken => (taken.1, taken.2 ++ c :: s) := by
  obtain ⟨hdecimal, hdot, hslash, hcolon⟩ := hc
  rw [lookbackToken, lookbackToken, upTo_stop hdecimal]
  cases upTo 4 isDecimal u with
  | none => rfl
  | some taken =>
    obtain ⟨hours, more⟩ := taken
    simp only [Option.map_some, Option.bind_eq_bind, Option.bind_some]
    cases more with
    | nil => simp [hdot, hslash]
    | cons d more =>
      by_cases hd : d = '.'
      · subst hd
        simp only [List.cons_append, upTo_stop hdecimal]
        cases upTo 2 isDecimal more <;> rfl
      by_cases hd' : d = '\\'
      · subst hd'
        cases more with
        | nil => simp [hcolon]
        | cons e more =>
          by_cases he : e = ':'
          · subst he
            simp only [List.cons_append, upTo_stop hdecimal]
            cases upTo 2 isDecimal more <;> rfl
          · simp [he]
      · simp [hd, hd']

theorem stops_lookback (hblank : Blank blanks) (rest : List Char) :
    ∃ c more, blanks ++ ')' :: rest = c :: more ∧ isDecimal c = false ∧ c ≠ '.' ∧ c ≠ '\\' ∧ c ≠ ':' := by
  have hall : (')' :: Conditions.blanks).all (fun d => !isDecimal d && d ≠ '.' && d ≠ '\\' && d ≠ ':') = true := by decide
  have hstop : ∀ d ∈ ')' :: Conditions.blanks, isDecimal d = false ∧ d ≠ '.' ∧ d ≠ '\\' ∧ d ≠ ':' := fun d hd => by
    simpa [and_assoc] using List.all_eq_true.mp hall d hd
  cases blanks with
  | nil => exact ⟨')', rest, rfl, hstop ')' List.mem_cons_self⟩
  | cons b blanks => exact ⟨b, _, rfl, hstop b (List.mem_cons_of_mem _ (mem_blanks (hblank b List.mem_cons_self)))⟩

theorem upTo_split {bound : Nat} {p : Char → Bool} {run : List Char} (h : upTo bound p s = some (run, rest)) :
    s = run ++ rest ∧ run ≠ [] ∧ ∀ c ∈ run, p c = true := by
  unfold upTo at h
  dsimp only at h
  split_ifs at h with hne
  cases h
  refine ⟨?_, hne, fun c => List.mem_takeWhile_imp⟩
  have hprefix : (s.take bound).takeWhile p <+: s := (List.takeWhile_prefix p).trans (List.take_prefix bound s)
  conv_lhs => rw [← List.take_append_drop ((s.take bound).takeWhile p).length s]
  rw [← List.prefix_iff_eq_take.mp hprefix]

theorem lookbackToken_split {token : List Char} (h : lookbackToken s = some (token, rest)) :
    s = token ++ rest ∧ ∃ c more, token = c :: more ∧ isWs c = false := by
  obtain ⟨⟨hours, more⟩, hhours, hrest⟩ := Option.bind_eq_some_iff.mp h
  obtain ⟨rfl, hne, hdecimal⟩ := upTo_split hhours
  have hhead (t : List Char) : ∃ c more, hours ++ t = c :: more ∧ isWs c = false := by
    cases hours with
    | nil => exact absurd rfl hne
    | cons c hours => exact ⟨c, _, rfl, not_isWs (p := isDecimal) (by rfl) (hdecimal c List.mem_cons_self)⟩
  clear h
  dsimp only at hrest
  split at hrest
  all_goals try split at hrest
  all_goals cases hrest
  · next hminutes =>
    obtain ⟨rfl, -⟩ := upTo_split hminutes
    exact ⟨by simp, hhead _⟩
  · exact ⟨rfl, by simpa using hhead []⟩
  · next hminutes =>
    obtain ⟨rfl, -⟩ := upTo_split hminutes
    exact ⟨by simp, hhead _⟩
  · exact ⟨rfl, by simpa using hhead []⟩
  · exact ⟨rfl, by simpa using hhead []⟩

/-- What stands after a reference, up to the parenthesis, whatever follows it. -/
def Closes (close : List Char) (lookback : Option Token) : Prop :=
  ∀ total rest, EndsRef (close ++ rest) ∧ ∃ found after, lookback? total (close ++ rest) = some (found, after) ∧
    found.map Token.text = lookback.map Token.text ∧ punct ')' after = some rest

theorem closes_split {lookback : Option Token} {after : List Char} (h : lookback? total s = some (lookback, after))
    (hclose : punct ')' after = some rest) : ∃ close, s = close ++ rest ∧ Closes close lookback := by
  obtain ⟨blanks, hblank, rfl⟩ := (punct_eq_some rfl).mp hclose
  have hparen (rest : List Char) : punct ')' (blanks ++ ')' :: rest) = some rest :=
    (punct_eq_some rfl).mpr ⟨blanks, hblank, rfl⟩
  unfold lookback? at h
  split at h
  · next more hcomma =>
    obtain ⟨before, hbefore, rfl⟩ := (punct_eq_some rfl).mp hcomma
    obtain ⟨⟨token, after⟩, htoken, h⟩ := Option.bind_eq_some_iff.mp h
    cases h
    obtain ⟨hmore, c, more', rfl, hc⟩ := lookbackToken_split htoken
    have hall : more = more.takeWhile isWs ++ ((c :: more') ++ (blanks ++ ')' :: rest)) := by
      rw [← hmore, blanks_skipWs]
    refine ⟨before ++ ',' :: (more.takeWhile isWs ++ ((c :: more') ++ (blanks ++ [')']))), ?_, ?_⟩
    · conv_lhs => rw [hall]
      simp only [List.append_assoc, List.cons_append, List.nil_append]
    · intro total' rest'
      have hwhole : lookbackToken (c :: more') = some (c :: more', []) := by
        obtain ⟨d, tail, htail, hd⟩ := stops_lookback hblank rest
        rw [hmore, htail, lookbackToken_stop hd] at htoken
        obtain ⟨⟨taken, left⟩, htaken, heq⟩ := Option.map_eq_some_iff.mp htoken
        have hleft : left = [] := by
          have hlength := congrArg (fun p => p.2.length) heq
          simp only [List.length_append] at hlength
          exact List.length_eq_zero_iff.mp (by omega)
        have htoken' : taken = c :: more' := (Prod.mk.inj heq).1
        rw [htaken, hleft, htoken']
      have hread : lookbackToken (c :: more' ++ (blanks ++ ')' :: rest')) = some (c :: more', blanks ++ ')' :: rest') := by
        obtain ⟨d, tail, htail, hd⟩ := stops_lookback hblank rest'
        rw [htail, lookbackToken_stop hd, hwhole]
        rfl
      have htext : before ++ ',' :: (more.takeWhile isWs ++ ((c :: more') ++ (blanks ++ [')']))) ++ rest' =
          before ++ ',' :: (more.takeWhile isWs ++ ((c :: more') ++ (blanks ++ ')' :: rest'))) := by
        simp only [List.append_assoc, List.cons_append, List.nil_append]
      have hskip : skipWs (more.takeWhile isWs ++ ((c :: more') ++ (blanks ++ ')' :: rest'))) =
          (c :: more') ++ (blanks ++ ')' :: rest') := skipWs_head (blank_takeWhile more) hc
      have hcomma' : punct ',' (before ++ ',' :: (more.takeWhile isWs ++ ((c :: more') ++ (blanks ++ ')' :: rest')))) =
          some (more.takeWhile isWs ++ ((c :: more') ++ (blanks ++ ')' :: rest'))) :=
        (punct_eq_some rfl).mpr ⟨before, hbefore, rfl⟩
      rw [htext]
      refine ⟨⟨before, ',', _, rfl, hbefore, List.mem_cons_self⟩,
        some ⟨String.ofList (c :: more'), total' - (c :: more' ++ (blanks ++ ')' :: rest')).length⟩, _, ?_, rfl, hparen rest'⟩
      rw [lookback?, hcomma']
      simp only [hskip, hread, Option.bind_eq_bind, Option.bind_some]
  · cases h
    refine ⟨blanks ++ [')'], by simp, fun total' rest' => ?_⟩
    have htext : blanks ++ [')'] ++ rest' = blanks ++ ')' :: rest' := by simp
    rw [htext]
    refine ⟨⟨blanks, ')', rest', rfl, hblank, by decide⟩, none, _, ?_, rfl, hparen rest'⟩
    rw [lookback?, punct_none hblank rfl (by decide)]

/-! ## Comparisons -/

theorem lower_eq {k : Char} (hk : k.toNat < 97) (h : c.toLower = k) : c = k := by
  rw [Char.toLower] at h
  split_ifs at h with hupper
  · exfalso
    have hval := congrArg Char.toNat h
    simp only [Char.toNat, UInt32.le_iff_toNat_le, ge_iff_le, UInt32.toNat_add, UInt32.toNat_sub] at hval hupper hk
    simp at hval hupper hk
    omega
  · exact h

theorem takeWord_marks {word taken : List Char} (hword : ∀ k ∈ word, k.toNat < 97) (h : takeWord word s = some (taken, rest)) :
    s = word ++ rest := by
  obtain ⟨rfl, hall⟩ := takeWord_split h
  have heq : taken = word := by
    clear h
    induction hall with
    | nil => rfl
    | @cons k c word taken hletter hall ih =>
      have hk := hword k List.mem_cons_self
      have hne : k ≠ 'i' ∧ k ≠ 's' := ⟨fun heq => by simp [heq] at hk, fun heq => by simp [heq] at hk⟩
      have hlower : c.toLower = k := by simpa [sameLetter, hne.1, hne.2] using hletter
      rw [lower_eq hk hlower, ih fun k' hk' => hword k' (List.mem_cons_of_mem k hk')]
  rw [heq]

/-- An operator is read before what does not make it a longer one. -/
def Stops (op : List Char) (c : Char) : Prop := op = ['<'] ∨ op = ['>'] → c ≠ '='

theorem cmpOp_split {op : Oracle.CmpOp} (h : cmpOp s = some (op, rest)) :
    ∃ word, (word, op) ∈ CMP_OP ∧ s = word ++ rest ∧ ∀ c ∈ rest.head?, Stops word c := by
  obtain ⟨⟨word, op'⟩, hmem, hword⟩ := List.exists_of_findSome?_eq_some h
  obtain ⟨⟨taken, after⟩, htaken, heq⟩ := Option.map_eq_some_iff.mp hword
  obtain ⟨rfl, rfl⟩ := Prod.mk.inj heq
  clear heq
  dsimp only at htaken
  have hall : (CMP_OP.all fun w => w.1.all fun k => decide (k.toNat < 97)) = true := by decide
  have hmarks : ∀ k ∈ word, k.toNat < 97 := fun k hk =>
    of_decide_eq_true (List.all_eq_true.mp (List.all_eq_true.mp hall _ hmem) k hk)
  have hs := takeWord_marks hmarks htaken
  clear hword htaken
  subst hs
  have hle (more : List Char) : cmpOp (['<'] ++ '=' :: more) = some (.le, more) := rfl
  have hge (more : List Char) : cmpOp (['>'] ++ '=' :: more) = some (.ge, more) := rfl
  refine ⟨word, hmem, rfl, ?_⟩
  rintro c hc (rfl | rfl) rfl
  all_goals
    obtain ⟨more, rfl⟩ : ∃ more, after = '=' :: more := by
      cases after with
      | nil => cases hc
      | cons d more => exact ⟨more, by rw [show d = '=' from Option.some.inj hc]⟩
  · exact absurd (congrArg Prod.snd (Option.some.inj (h.symm.trans (hle more)))) (List.cons_ne_self _ _)
  · exact absurd (congrArg Prod.snd (Option.some.inj (h.symm.trans (hge more)))) (List.cons_ne_self _ _)

/-- The operators tried before it do not match. -/
theorem cmpOp_first {op : Oracle.CmpOp} {word : List Char} (hmem : (word, op) ∈ CMP_OP) (h : Stops word c) :
    ∃ earlier later, CMP_OP = earlier ++ (word, op) :: later ∧
      (∀ w ∈ earlier, takeWord w.1 (word ++ c :: s) = none) ∧ takeWord word (word ++ c :: s) = some (word, c :: s) := by
  have hletter (hne : c ≠ '=') : sameLetter '=' c = false := by
    refine Bool.eq_false_iff.mpr fun hsame => hne (lower_eq (by decide) ?_)
    simpa [sameLetter] using hsame
  have hshort {d : Char} (hne : c ≠ '=') : takeWord [d, '='] (d :: c :: s) = none := by
    simp [takeWord, hletter hne]
  have hrest (w : List Char × Oracle.CmpOp) (hw : w ∈ CMP_OP.take 3) (hne : c ≠ '=') (hd : word = ['<'] ∨ word = ['>']) :
      takeWord w.1 (word ++ c :: s) = none := by
    simp only [CMP_OP, List.take_succ_cons, List.take_zero, List.mem_cons, List.not_mem_nil, or_false] at hw
    rcases hw with rfl | rfl | rfl <;> rcases hd with rfl | rfl
    all_goals first | rfl | exact hshort hne
  simp only [CMP_OP, List.mem_cons, Prod.mk.injEq, List.not_mem_nil, or_false] at hmem
  rcases hmem with ⟨rfl, rfl⟩ | ⟨rfl, rfl⟩ | ⟨rfl, rfl⟩ | ⟨rfl, rfl⟩ | ⟨rfl, rfl⟩ | ⟨rfl, rfl⟩
  · exact ⟨[], _, rfl, by simp, rfl⟩
  · refine ⟨CMP_OP.take 1, CMP_OP.drop 2, rfl, fun w hw => ?_, rfl⟩
    rw [List.mem_singleton.mp hw]
    rfl
  · refine ⟨CMP_OP.take 2, CMP_OP.drop 3, rfl, fun w hw => ?_, rfl⟩
    simp only [CMP_OP, List.take_succ_cons, List.take_zero, List.mem_cons, List.not_mem_nil, or_false] at hw
    rcases hw with rfl | rfl <;> rfl
  · refine ⟨CMP_OP.take 3, CMP_OP.drop 4, rfl, fun w hw => ?_, rfl⟩
    simp only [CMP_OP, List.take_succ_cons, List.take_zero, List.mem_cons, List.not_mem_nil, or_false] at hw
    rcases hw with rfl | rfl | rfl <;> rfl
  · refine ⟨CMP_OP.take 4, CMP_OP.drop 5, rfl, fun w hw => ?_, rfl⟩
    rcases List.mem_append.mp (show w ∈ CMP_OP.take 3 ++ [(['='], .eq)] from hw) with hw | hw
    · exact hrest w hw (h (.inl rfl)) (.inl rfl)
    · rw [List.mem_singleton.mp hw]
      rfl
  · refine ⟨CMP_OP.take 5, CMP_OP.drop 6, rfl, fun w hw => ?_, rfl⟩
    rcases List.mem_append.mp (show w ∈ CMP_OP.take 3 ++ [(['='], .eq), (['<'], .lt)] from hw) with hw | hw
    · exact hrest w hw (h (.inr rfl)) (.inr rfl)
    · simp only [List.mem_cons, List.not_mem_nil, or_false] at hw
      rcases hw with rfl | rfl <;> rfl

theorem cmpOp_append {op : Oracle.CmpOp} {word : List Char} (hmem : (word, op) ∈ CMP_OP) (h : Stops word c) :
    cmpOp (word ++ c :: s) = some (op, c :: s) := by
  obtain ⟨earlier, later, heq, hearlier, hword⟩ := cmpOp_first (s := s) hmem h
  have hnone : (earlier.findSome? fun op => (takeWord op.1 (word ++ c :: s)).map fun taken => (op.2, taken.2)) = none :=
    List.findSome?_eq_none_iff.mpr fun w hw => by rw [hearlier w hw]; rfl
  rw [cmpOp, heq, List.findSome?_append, hnone, Option.none_or, List.findSome?_cons, hword]
  rfl

theorem skipWs_op {op : Oracle.CmpOp} {word : List Char} (hmem : (word, op) ∈ CMP_OP) (hblank : Blank blanks) :
    skipWs (blanks ++ (word ++ s)) = word ++ s := by
  have hall : (CMP_OP.all fun w => w.1.head?.any fun c => !isWs c) = true := by decide
  have hhead : (word.head?.any fun c => !isWs c) = true := List.all_eq_true.mp hall _ hmem
  cases word with
  | nil => cases hhead
  | cons d word => exact skipWs_head hblank (by simpa using hhead)

/-- An operator is read after blanks, before what stops it. -/
theorem cmpOp_blank {op : Oracle.CmpOp} {word : List Char} (hmem : (word, op) ∈ CMP_OP) (hblank : Blank blanks)
    (hne : s ≠ []) (hstop : ∀ c ∈ s.head?, Stops word c) :
    cmpOp (skipWs (blanks ++ (word ++ s))) = some (op, s) := by
  rw [skipWs_op hmem hblank]
  cases s with
  | nil => exact absurd rfl hne
  | cons c s => exact cmpOp_append hmem (hstop c rfl)

/-! ## Values -/

inductive ValueText : ValueToken → Prop
  | quoted {between : List Char} : '"' ∉ between → ValueText (.quoted (String.ofList ('"' :: (between ++ ['"']))))
  | bare {run : List Char} : run ≠ [] → (∀ c ∈ run, isBareChar c = true) → ValueText (.bare (String.ofList run))

/-- Where a value ends. -/
def EndsValue : ValueToken → List Char → Prop
  | .quoted _, _ => True
  | .bare text, rest => quoted (text.toList ++ rest) = none ∧ ∀ c ∈ rest.head?, isBareChar c = false

theorem quoted_append {between : List Char} (h : '"' ∉ between) (rest : List Char) :
    quoted ('"' :: (between ++ ['"']) ++ rest) = some ('"' :: (between ++ ['"']), rest) := by
  have hclass : ∀ c ∈ between, (c ≠ '"' : Bool) = true := fun c hc => decide_eq_true fun heq => h (heq ▸ hc)
  have hdrop : (between ++ '"' :: rest).dropWhile (· ≠ '"') = '"' :: rest := by
    rw [List.dropWhile_append_of_pos hclass]
    rfl
  have htake : (between ++ '"' :: rest).takeWhile (· ≠ '"') = between := by
    rw [List.takeWhile_append_of_pos hclass]
    exact List.append_nil _
  rw [List.cons_append, List.append_assoc, List.singleton_append, quoted, hdrop]
  dsimp only
  rw [htake]

theorem quoted_split {text : List Char} (h : quoted s = some (text, rest)) :
    ∃ between, '"' ∉ between ∧ text = '"' :: (between ++ ['"']) ∧ s = text ++ rest := by
  unfold quoted at h
  split at h
  · next more =>
    split at h
    · next d after hdrop =>
      cases h
      have hne : (more.dropWhile (· ≠ '"')) ≠ [] := by
        rw [hdrop]
        exact List.cons_ne_nil _ _
      have hd : d = '"' := by
        have hhead := List.head_dropWhile_not (fun c => decide (c ≠ '"')) (l := more) hne
        simp only [hdrop, List.head_cons] at hhead
        simpa using hhead
      refine ⟨more.takeWhile (· ≠ '"'), fun hmem => ?_, rfl, ?_⟩
      · simpa using List.mem_takeWhile_imp hmem
      · have hsplit : more = more.takeWhile (· ≠ '"') ++ '"' :: rest := by
          rw [hd] at hdrop
          rw [← hdrop, List.takeWhile_append_dropWhile]
        conv_lhs => rw [hsplit]
        simp only [List.cons_append, List.append_assoc, List.nil_append]
    · cases h
  · cases h

theorem globalValue_split {value : ValueToken} (h : globalValue s = some (value, rest)) :
    ValueText value ∧ s = valueText value ++ rest ∧ EndsValue value rest := by
  unfold globalValue at h
  split at h
  · next hquoted =>
    cases h
    obtain ⟨between, hbetween, rfl, rfl⟩ := quoted_split hquoted
    exact ⟨.quoted hbetween, by rw [valueText, String.toList_ofList], trivial⟩
  · next hquoted =>
    obtain ⟨taken, htaken, heq⟩ := Option.map_eq_some_iff.mp h
    cases heq
    obtain ⟨rfl, hne, hall, hrest⟩ := charsOf_split htaken
    refine ⟨.bare hne hall, by rw [valueText, String.toList_ofList], ?_, hrest⟩
    rw [String.toList_ofList]
    exact hquoted

theorem globalValue_append {value : ValueToken} (h : ValueText value) (hrest : EndsValue value rest) :
    globalValue (valueText value ++ rest) = some (value, rest) := by
  cases h with
  | quoted hbetween => rw [valueText, String.toList_ofList, globalValue, quoted_append hbetween rest]
  | bare hne hall =>
    obtain ⟨hquoted, hstop⟩ := hrest
    rw [String.toList_ofList] at hquoted
    rw [valueText, String.toList_ofList, globalValue, hquoted, charsOf_append hne hall hstop]
    rfl

theorem value_head {value : ValueToken} (h : ValueText value) : ∃ c more, valueText value = c :: more ∧ isWs c = false := by
  cases h with
  | quoted hbetween => exact ⟨'"', _, by rw [valueText, String.toList_ofList], rfl⟩
  | @bare run hne hall =>
    cases run with
    | nil => exact absurd rfl hne
    | cons c run =>
      exact ⟨c, run, by rw [valueText, String.toList_ofList], not_isWs (by rfl) (hall c List.mem_cons_self)⟩

theorem stops_global (hblank : Blank blanks) : ∀ c ∈ (blanks ++ ')' :: s).head?, isGlobalChar c = false := by
  have hall : (')' :: Conditions.blanks).all (fun d => !isGlobalChar d) = true := by decide
  have hstop : ∀ d ∈ ')' :: Conditions.blanks, isGlobalChar d = false := fun d hd => by
    simpa using List.all_eq_true.mp hall d hd
  cases blanks with
  | nil =>
    rintro c ⟨⟩
    exact hstop ')' List.mem_cons_self
  | cons b blanks =>
    rintro c ⟨⟩
    exact hstop b (List.mem_cons_of_mem _ (mem_blanks (hblank b List.mem_cons_self)))

/-! ## Atoms -/

/-- How an atom is spelled. -/
inductive Spelled : AtomText → AtomTree → Prop
  | status {kw blanks close : List Char} {ref : RefText} {lookback : Option Token} (hopen : Opens STATUS_KW kw blanks)
      (href : ref.Ok) (hclose : Closes close lookback) :
      Spelled (.job (kw ++ (blanks ++ ['('])) ref close) (.status_atom (String.ofList kw) ref.tree lookback)
  | exitcode {kw blanks close gap word gap' digits : List Char} {ref : RefText} {lookback : Option Token}
      {op : Oracle.CmpOp} (hopen : Opens EXITCODE_KW kw blanks) (href : ref.Ok) (hclose : Closes close lookback)
      (hgap : Blank gap) (hop : (word, op) ∈ CMP_OP) (hgap' : Blank gap') (hne : digits ≠ [])
      (hdigits : ∀ c ∈ digits, c.isDigit = true) :
      Spelled (.job (kw ++ (blanks ++ ['('])) ref (close ++ (gap ++ (word ++ (gap' ++ digits)))))
        (.exitcode_atom (String.ofList kw) ref.tree lookback op (String.ofList digits))
  | global {kw blanks lead name gap gap' word gap'' : List Char} {op : Oracle.CmpOp} {value : ValueToken}
      (hopen : Opens VALUE_KW kw blanks) (hlead : Blank lead) (hne : name ≠ [])
      (hname : ∀ c ∈ name, isGlobalChar c = true) (hgap : Blank gap) (hgap' : Blank gap') (hop : (word, op) ∈ CMP_OP)
      (hgap'' : Blank gap'') (hvalue : ValueText value) (hstop : ∀ c ∈ (gap'' ++ valueText value).head?, Stops word c) :
      Spelled (.global (kw ++ (blanks ++ '(' :: lead)) name (gap ++ ')' :: (gap' ++ (word ++ gap''))) value)
        (.global_atom (String.ofList kw) (String.ofList name) op value)

/-- Where an atom ends. -/
def EndsAtom : AtomTree → List Char → Prop
  | .status_atom _ _ _, _ => True
  | .exitcode_atom _ _ _ _ _, rest => ∀ c ∈ rest.head?, c.isDigit = false
  | .global_atom _ _ _ value, rest => EndsValue value rest

/-- The parentheses of a status and of an exit code are spelled so. -/
theorem jobAndLookback_split {job : JobTree} {lookback : Option Token}
    (h : jobAndLookback total s = some ((job, lookback), rest)) :
    ∃ opened ref close, punct '(' s = some opened ∧ RefText.Ok ref ∧ job = ref.tree ∧
      opened = ref.text ++ (close ++ rest) ∧ Closes close lookback := by
  obtain ⟨opened, hopen, h⟩ := Option.bind_eq_some_iff.mp h
  obtain ⟨⟨job', named⟩, hjob, h⟩ := Option.bind_eq_some_iff.mp h
  obtain ⟨⟨lookback', after⟩, hlookback, h⟩ := Option.bind_eq_some_iff.mp h
  obtain ⟨rest', hclose, h⟩ := Option.bind_eq_some_iff.mp h
  cases h
  obtain ⟨ref, href, rfl, rfl⟩ := jobRef_split hjob
  obtain ⟨close, rfl, hcloses⟩ := closes_split hlookback hclose
  exact ⟨_, ref, close, hopen, href, rfl, rfl, hcloses⟩

/-- What is read is spelled so. -/
theorem atom_split {tree : AtomTree} (h : atom total s = some (tree, rest)) :
    ∃ a, Spelled a tree ∧ s = a.text ++ rest ∧ EndsAtom tree rest := by
  rcases Option.or_eq_some_iff.mp h with h | ⟨-, h⟩
  · obtain ⟨⟨kw, s₁⟩, hkw, h⟩ := Option.bind_eq_some_iff.mp h
    obtain ⟨⟨⟨job, lookback⟩, s₂⟩, hjob, h⟩ := Option.bind_eq_some_iff.mp h
    cases h
    obtain ⟨opened, ref, close, hopen, href, rfl, rfl, hclose⟩ := jobAndLookback_split hjob
    obtain ⟨blanks, hopens, rfl⟩ := opens_split letters_keywords.1 hkw hopen
    refine ⟨_, .status hopens href hclose, ?_, trivial⟩
    simp only [AtomText.text, List.append_assoc, List.cons_append, List.nil_append]
  rcases Option.or_eq_some_iff.mp h with h | ⟨-, h⟩
  · obtain ⟨⟨kw, s₁⟩, hkw, h⟩ := Option.bind_eq_some_iff.mp h
    obtain ⟨⟨⟨job, lookback⟩, s₂⟩, hjob, h⟩ := Option.bind_eq_some_iff.mp h
    obtain ⟨⟨op, s₃⟩, hop, h⟩ := Option.bind_eq_some_iff.mp h
    obtain ⟨⟨digits, s₄⟩, hdigits, h⟩ := Option.bind_eq_some_iff.mp h
    cases h
    obtain ⟨opened, ref, close, hopen, href, rfl, rfl, hclose⟩ := jobAndLookback_split hjob
    obtain ⟨blanks, hopens, rfl⟩ := opens_split letters_keywords.2.1 hkw hopen
    obtain ⟨word, hword, hs₂, -⟩ := cmpOp_split hop
    obtain ⟨hs₃, hne, hall, hrest⟩ := charsOf_split hdigits
    have hs : s₂ = s₂.takeWhile isWs ++ (word ++ (s₃.takeWhile isWs ++ (digits ++ rest))) := by
      rw [← hs₃, blanks_skipWs, ← hs₂, blanks_skipWs]
    refine ⟨_, .exitcode hopens href hclose (blank_takeWhile s₂) hword (blank_takeWhile s₃) hne hall, ?_, hrest⟩
    conv_lhs => rw [hs]
    simp only [AtomText.text, List.append_assoc, List.cons_append, List.nil_append]
  · obtain ⟨⟨kw, s₁⟩, hkw, h⟩ := Option.bind_eq_some_iff.mp h
    obtain ⟨opened, hopen, h⟩ := Option.bind_eq_some_iff.mp h
    obtain ⟨⟨name, named⟩, hname, h⟩ := Option.bind_eq_some_iff.mp h
    obtain ⟨closed, hclosed, h⟩ := Option.bind_eq_some_iff.mp h
    obtain ⟨⟨op, compared⟩, hop, h⟩ := Option.bind_eq_some_iff.mp h
    obtain ⟨⟨value, rest'⟩, hvalue, h⟩ := Option.bind_eq_some_iff.mp h
    cases h
    obtain ⟨blanks, hopens, rfl⟩ := opens_split letters_keywords.2.2 hkw hopen
    obtain ⟨hopened, hne, hall, -⟩ := charsOf_split hname
    obtain ⟨gap, hgap, rfl⟩ := (punct_eq_some rfl).mp hclosed
    obtain ⟨word, hword, hs, hstop⟩ := cmpOp_split hop
    obtain ⟨hvalued, hs', hends⟩ := globalValue_split hvalue
    have hcompared : compared = compared.takeWhile isWs ++ (valueText value ++ rest) := by
      rw [← hs', blanks_skipWs]
    have hclosed' : closed = closed.takeWhile isWs ++ (word ++ (compared.takeWhile isWs ++ (valueText value ++ rest))) := by
      rw [← hcompared, ← hs, blanks_skipWs]
    have hopened' : opened = opened.takeWhile isWs ++ (name ++ (gap ++ ')' :: closed)) := by
      rw [← hopened, blanks_skipWs]
    have hnext : ∀ c ∈ (compared.takeWhile isWs ++ valueText value).head?, Stops word c := by
      intro c hc
      refine hstop c ?_
      obtain ⟨d, more, hd, -⟩ := value_head hvalued
      rw [hcompared]
      rw [hd] at hc ⊢
      cases htake : compared.takeWhile isWs with
      | nil =>
        rw [htake] at hc
        exact hc
      | cons e l =>
        rw [htake] at hc
        exact hc
    refine ⟨_, .global hopens (blank_takeWhile opened) hne hall hgap (blank_takeWhile closed) hword
      (blank_takeWhile compared) hvalued hnext, ?_, hends⟩
    conv_lhs => rw [hopened', hclosed']
    simp only [AtomText.text, List.append_assoc, List.cons_append]

/-! ## Reading them -/

/-- Keywords that begin with different letters. -/
def apart : List Char → List Char → Bool
  | k :: _, k' :: _ => k.toNat < 128 && k'.toNat < 128 && k ≠ 'i' && k' ≠ 'i' && k ≠ k'
  | _, _ => false

theorem sameLetter_unique {k k' : Char} (hk : k.toNat < 128 ∧ k ≠ 'i') (hk' : k'.toNat < 128 ∧ k' ≠ 'i')
    (h : sameLetter k c = true) (h' : sameLetter k' c = true) : k = k' := by
  have hlong (hc : c.toNat = 0x17F) : c.toLower.toNat = 0x17F := by
    rw [← Char.ofNat_toNat c, hc]
    rfl
  simp only [sameLetter, hk.2, hk'.2, decide_false, Bool.false_and, Bool.or_false, Bool.or_eq_true, Bool.and_eq_true,
    decide_eq_true_eq] at h h'
  rcases h with h | ⟨h, hc⟩ <;> rcases h' with h' | ⟨h', hc'⟩
  · exact h.symm.trans h'
  · have hcode := hlong hc'
    rw [h] at hcode
    omega
  · have hcode := hlong hc
    rw [h'] at hcode
    omega
  · rw [h, h']

theorem takeWord_apart {word word' taken : List Char} (h : apart word word' = true)
    (hall : List.Forall₂ (fun k c => sameLetter k c = true) word taken) : takeWord word' (taken ++ rest) = none := by
  cases hall with
  | nil => cases h
  | @cons k c word taken hletter hall =>
    cases word' with
    | nil => cases h
    | cons k' word' =>
      simp only [apart, Bool.and_eq_true, decide_eq_true_eq] at h
      obtain ⟨⟨⟨⟨hk, hk'⟩, hi⟩, hi'⟩, hne⟩ := h
      rw [List.cons_append, takeWord, if_neg fun h' => hne (sameLetter_unique ⟨hk, hi⟩ ⟨hk', hi'⟩ hletter h')]

theorem Opens.other {words words' : List (List Char)} {kw : List Char} (h : Opens words kw blanks)
    (hapart : (words.all fun word => words'.all fun word' => apart word word') = true) : oneOf words' (kw ++ rest) = none := by
  obtain ⟨-, word, hmem, hall⟩ := oneOf_split h.keyword
  refine List.findSome?_eq_none_iff.mpr fun word' hmem' => takeWord_apart ?_ hall
  exact List.all_eq_true.mp (List.all_eq_true.mp hapart word hmem) word' hmem'

/-- A tree whose tokens have no places. -/
def unplaced : AtomTree → AtomTree
  | .status_atom kw job lookback => .status_atom kw job (lookback.map fun token => ⟨token.text, 0⟩)
  | .exitcode_atom kw job lookback op value =>
    .exitcode_atom kw job (lookback.map fun token => ⟨token.text, 0⟩) op value
  | tree => tree

theorem unplaced_token {found lookback : Option Token} (h : found.map Token.text = lookback.map Token.text) :
    (found.map fun token => Token.mk token.text 0) = lookback.map fun token => ⟨token.text, 0⟩ := by
  have h' := congrArg (Option.map fun text => Token.mk text 0) h
  rwa [Option.map_map, Option.map_map] at h'

theorem Closes.read {close : List Char} {lookback : Option Token} {ref : RefText} (hclose : Closes close lookback)
    (href : ref.Ok) (hblank : Blank blanks) (total : Nat) (rest : List Char) :
    ∃ found, jobAndLookback total (blanks ++ '(' :: (ref.text ++ (close ++ rest))) = some ((ref.tree, found), rest) ∧
      found.map Token.text = lookback.map Token.text := by
  obtain ⟨hends, found, after, hfound, htext, hafter⟩ := hclose total rest
  refine ⟨found, ?_, htext⟩
  have hopen : punct '(' (blanks ++ '(' :: (ref.text ++ (close ++ rest))) = some (ref.text ++ (close ++ rest)) :=
    (punct_eq_some rfl).mpr ⟨blanks, hblank, rfl⟩
  simp only [jobAndLookback, hopen, (href.read hends).1, hfound, hafter, Option.bind_eq_bind, Option.bind_some]

/-- The pieces of an atom about a job. -/
theorem readAtom_job {kw tail : List Char} {ref : RefText} {tree : AtomTree} (hblank : Blank blanks) (href : ref.Ok)
    (hends : EndsRef (tail ++ rest))
    (hkw : oneOf (STATUS_KW ++ EXITCODE_KW) (kw ++ (blanks ++ '(' :: (ref.text ++ (tail ++ rest)))) =
      some (kw, blanks ++ '(' :: (ref.text ++ (tail ++ rest))))
    (htree : atom 0 (kw ++ (blanks ++ '(' :: (ref.text ++ (tail ++ rest)))) = some (tree, rest))
    (hjob : ∀ kw name op value, tree ≠ .global_atom kw name op value) :
    readAtom (kw ++ (blanks ++ '(' :: (ref.text ++ (tail ++ rest)))) =
      some (.job (kw ++ (blanks ++ ['('])) ref tail, rest) := by
  have hopen : punct '(' (blanks ++ '(' :: (ref.text ++ (tail ++ rest))) = some (ref.text ++ (tail ++ rest)) :=
    (punct_eq_some rfl).mpr ⟨blanks, hblank, rfl⟩
  have hhead : kw ++ (blanks ++ '(' :: (ref.text ++ (tail ++ rest))) =
      (kw ++ (blanks ++ ['('])) ++ (ref.text ++ (tail ++ rest)) := by
    simp only [List.append_assoc, List.cons_append, List.nil_append]
  have hconsumed : consumed (kw ++ (blanks ++ '(' :: (ref.text ++ (tail ++ rest)))) (ref.text ++ (tail ++ rest)) =
      kw ++ (blanks ++ ['(']) := by
    rw [hhead, consumed_append]
  rw [readAtom, htree]
  simp only [Option.bind_eq_bind, Option.bind_some, hkw, hopen, (href.read hends).2, hconsumed, consumed_append]

/-- What is spelled so is read so, where it ends. -/
theorem Spelled.read {a : AtomText} {tree : AtomTree} (h : Spelled a tree) (hrest : EndsAtom tree rest) :
    (∀ total, ∃ found, atom total (a.text ++ rest) = some (found, rest) ∧ unplaced found = unplaced tree) ∧
      readAtom (a.text ++ rest) = some (a, rest) := by
  cases h with
  | @status kw blanks close ref lookback hopen href hclose =>
    have htext : (AtomText.job (kw ++ (blanks ++ ['('])) ref close).text ++ rest =
        kw ++ (blanks ++ '(' :: (ref.text ++ (close ++ rest))) := by
      simp only [AtomText.text, List.append_assoc, List.cons_append, List.nil_append]
    obtain ⟨hkw, -⟩ := hopen.read letters_keywords.1 (ref.text ++ (close ++ rest))
    have hread (total : Nat) : ∃ found, atom total (kw ++ (blanks ++ '(' :: (ref.text ++ (close ++ rest)))) =
        some (.status_atom (String.ofList kw) ref.tree found, rest) ∧ found.map Token.text = lookback.map Token.text := by
      obtain ⟨found, hfound, hsame⟩ := hclose.read href hopen.blank total rest
      refine ⟨found, ?_, hsame⟩
      rw [atom, statusAtom, hkw]
      simp only [Option.bind_eq_bind, Option.bind_some, hfound, Option.some_or]
    rw [htext]
    constructor
    · intro total
      obtain ⟨found, hfound, hsame⟩ := hread total
      exact ⟨_, hfound, by rw [unplaced, unplaced, unplaced_token hsame]⟩
    · obtain ⟨found, hfound, -⟩ := hread 0
      refine readAtom_job hopen.blank href (hclose 0 rest).1 ?_ hfound (by simp)
      rw [oneOf, List.findSome?_append]
      exact Option.or_eq_some_iff.mpr (.inl hkw)
  | @exitcode kw blanks close gap word gap' digits ref lookback op hopen href hclose hgap hop hgap' hne hdigits =>
    have htext : (AtomText.job (kw ++ (blanks ++ ['('])) ref (close ++ (gap ++ (word ++ (gap' ++ digits))))).text ++ rest =
        kw ++ (blanks ++ '(' :: (ref.text ++ (close ++ (gap ++ (word ++ (gap' ++ (digits ++ rest))))))) := by
      simp only [AtomText.text, List.append_assoc, List.cons_append, List.nil_append]
    obtain ⟨hkw, -⟩ := hopen.read letters_keywords.2.1
      (ref.text ++ (close ++ (gap ++ (word ++ (gap' ++ (digits ++ rest))))))
    have hother : oneOf STATUS_KW (kw ++ (blanks ++ '(' :: (ref.text ++ (close ++ (gap ++ (word ++ (gap' ++ (digits ++ rest)))))))) =
        none := hopen.other (by decide)
    have hop' : cmpOp (skipWs (gap ++ (word ++ (gap' ++ (digits ++ rest))))) = some (op, gap' ++ (digits ++ rest)) := by
      refine cmpOp_blank hop hgap (by simp [hne]) fun c hc _ heq => ?_
      have hc' : c.isDigit = true ∨ isWs c = true := by
        cases gap' with
        | nil =>
          cases digits with
          | nil => exact absurd rfl hne
          | cons d digits =>
            cases hc
            exact .inl (hdigits _ List.mem_cons_self)
        | cons d gap' =>
          cases hc
          exact .inr (hgap' _ List.mem_cons_self)
      rw [heq] at hc'
      exact absurd hc' (by decide)
    have hvalue : charsOf Char.isDigit (skipWs (gap' ++ (digits ++ rest))) = some (digits, rest) := by
      rw [skipWs_blank hgap', skipWs_run (by rfl) hne hdigits, charsOf_append hne hdigits hrest]
    have hread (total : Nat) :
        ∃ found, atom total (kw ++ (blanks ++ '(' :: (ref.text ++ (close ++ (gap ++ (word ++ (gap' ++ (digits ++ rest)))))))) =
          some (.exitcode_atom (String.ofList kw) ref.tree found op (String.ofList digits), rest) ∧
          found.map Token.text = lookback.map Token.text := by
      obtain ⟨found, hfound, hsame⟩ := hclose.read href hopen.blank total (gap ++ (word ++ (gap' ++ (digits ++ rest))))
      refine ⟨found, ?_, hsame⟩
      rw [atom, statusAtom, hother, exitcodeAtom, hkw]
      simp only [Option.bind_eq_bind, Option.bind_none, Option.bind_some, hfound, hop', hvalue, Option.none_or,
        Option.some_or]
    rw [htext]
    constructor
    · intro total
      obtain ⟨found, hfound, hsame⟩ := hread total
      exact ⟨_, hfound, by rw [unplaced, unplaced, unplaced_token hsame]⟩
    · obtain ⟨found, hfound, -⟩ := hread 0
      have htail : close ++ (gap ++ (word ++ (gap' ++ (digits ++ rest)))) =
          (close ++ (gap ++ (word ++ (gap' ++ digits)))) ++ rest := by
        simp only [List.append_assoc]
      have hends := (hclose 0 (gap ++ (word ++ (gap' ++ (digits ++ rest))))).1
      rw [htail] at hkw hother hfound hends ⊢
      refine readAtom_job hopen.blank href hends ?_ hfound (by simp)
      rw [oneOf, List.findSome?_append]
      exact Option.or_eq_some_iff.mpr (.inr ⟨hother, hkw⟩)
  | @global kw blanks lead name gap gap' word gap'' op value hopen hlead hne hname hgap hgap' hop hgap'' hvalue hstop =>
    obtain ⟨d, more, hd, hws⟩ := value_head hvalue
    have htext : (AtomText.global (kw ++ (blanks ++ '(' :: lead)) name (gap ++ ')' :: (gap' ++ (word ++ gap''))) value).text ++
        rest = kw ++ (blanks ++ '(' :: (lead ++ (name ++ (gap ++ ')' :: (gap' ++ (word ++ (gap'' ++ (valueText value ++ rest)))))))) := by
      simp only [AtomText.text, List.append_assoc, List.cons_append]
    obtain ⟨hkw, hopened⟩ := hopen.read letters_keywords.2.2
      (lead ++ (name ++ (gap ++ ')' :: (gap' ++ (word ++ (gap'' ++ (valueText value ++ rest)))))))
    have hstatus : oneOf STATUS_KW (kw ++ (blanks ++ '(' :: (lead ++ (name ++ (gap ++ ')' :: (gap' ++ (word ++ (gap'' ++
        (valueText value ++ rest))))))))) = none := hopen.other (by decide)
    have hexitcode : oneOf EXITCODE_KW (kw ++ (blanks ++ '(' :: (lead ++ (name ++ (gap ++ ')' :: (gap' ++ (word ++ (gap'' ++
        (valueText value ++ rest))))))))) = none := hopen.other (by decide)
    have hskip : skipWs (lead ++ (name ++ (gap ++ ')' :: (gap' ++ (word ++ (gap'' ++ (valueText value ++ rest))))))) =
        name ++ (gap ++ ')' :: (gap' ++ (word ++ (gap'' ++ (valueText value ++ rest))))) := by
      rw [skipWs_blank hlead, skipWs_run (by rfl) hne hname]
    have hnamed : charsOf isGlobalChar (name ++ (gap ++ ')' :: (gap' ++ (word ++ (gap'' ++ (valueText value ++ rest)))))) =
        some (name, gap ++ ')' :: (gap' ++ (word ++ (gap'' ++ (valueText value ++ rest))))) :=
      charsOf_append hne hname (stops_global hgap)
    have hclosed : punct ')' (gap ++ ')' :: (gap' ++ (word ++ (gap'' ++ (valueText value ++ rest))))) =
        some (gap' ++ (word ++ (gap'' ++ (valueText value ++ rest)))) := (punct_eq_some rfl).mpr ⟨gap, hgap, rfl⟩
    have hcompared : cmpOp (skipWs (gap' ++ (word ++ (gap'' ++ (valueText value ++ rest))))) =
        some (op, gap'' ++ (valueText value ++ rest)) := by
      refine cmpOp_blank hop hgap' (by simp [hd]) fun c hc => hstop c ?_
      rw [hd] at hc ⊢
      cases gap'' with
      | nil => exact hc
      | cons e gap'' => exact hc
    have hvalued : skipWs (gap'' ++ (valueText value ++ rest)) = valueText value ++ rest := by
      rw [hd]
      exact skipWs_head hgap'' hws
    have hread (total : Nat) :
        atom total (kw ++ (blanks ++ '(' :: (lead ++ (name ++ (gap ++ ')' :: (gap' ++ (word ++ (gap'' ++ (valueText value ++ rest))))))))) =
          some (.global_atom (String.ofList kw) (String.ofList name) op value, rest) := by
      rw [atom, statusAtom, hstatus, exitcodeAtom, hexitcode, globalAtom, hkw]
      simp only [Option.bind_eq_bind, Option.bind_none, Option.bind_some, Option.none_or, hopened, hskip, hnamed, hclosed,
        hcompared, hvalued, globalValue_append hvalue hrest]
    have hhead : consumed (kw ++ (blanks ++ '(' :: (lead ++ (name ++ (gap ++ ')' :: (gap' ++ (word ++ (gap'' ++
        (valueText value ++ rest))))))))) (name ++ (gap ++ ')' :: (gap' ++ (word ++ (gap'' ++ (valueText value ++ rest)))))) =
        kw ++ (blanks ++ '(' :: lead) := by
      rw [show ∀ x, kw ++ (blanks ++ '(' :: (lead ++ x)) = (kw ++ (blanks ++ '(' :: lead)) ++ x from fun x => by
        simp only [List.append_assoc, List.cons_append], consumed_append]
    have hbetween : consumed (gap ++ ')' :: (gap' ++ (word ++ (gap'' ++ (valueText value ++ rest))))) (valueText value ++ rest) =
        gap ++ ')' :: (gap' ++ (word ++ gap'')) := by
      rw [show ∀ x, gap ++ ')' :: (gap' ++ (word ++ (gap'' ++ x))) = (gap ++ ')' :: (gap' ++ (word ++ gap''))) ++ x from
        fun x => by simp only [List.append_assoc, List.cons_append], consumed_append]
    rw [htext]
    refine ⟨fun total => ⟨_, hread total, rfl⟩, ?_⟩
    rw [readAtom, hread 0]
    simp only [Option.bind_eq_bind, Option.bind_some, hkw, hopened, hskip, hnamed, hclosed, hcompared, hvalued, hhead,
      hbetween]

end Atoms

end Dsl41.Minify
