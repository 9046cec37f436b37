import Dsl41.Conditions.Lexical
import Dsl41.Conditions.Render

/-!
# What is rendered is read: tokens and atoms

Each piece that the terminals take is rendered as a token that they take again, whatever follows it
in a rendering.
-/

namespace Dsl41.Conditions

open Infra Infra.Json Oracle

section Reading

variable {s rest : List Char} {total : Nat}

/-! ## Blanks and classes -/

theorem skipWs_cons {c : Char} (h : isWs c = false) : skipWs (c :: s) = c :: s :=
  List.dropWhile_cons_of_neg (by rw [h]; exact Bool.false_ne_true)

theorem skipWs_space : skipWs (' ' :: s) = skipWs s := rfl

theorem punct_cons {c : Char} (h : isWs c = false) : punct c (c :: s) = some s := by
  rw [punct, skipWs_cons h]
  exact if_pos rfl

theorem punct_cons_ne {c d : Char} (h : isWs d = false) (hne : d ≠ c) : punct c (d :: s) = none := by
  rw [punct, skipWs_cons h]
  exact if_neg hne

/-- A run of a class ends where the class does. -/
theorem charsOf_append {p : Char → Bool} {run : List Char} (hne : run ≠ []) (hrun : ∀ c ∈ run, p c = true)
    (hrest : ∀ c ∈ rest.head?, p c = false) : charsOf p (run ++ rest) = some (run, rest) := by
  have htake : (run ++ rest).takeWhile p = run := by
    rw [List.takeWhile_append_of_pos hrun]
    cases rest with
    | nil => rw [List.takeWhile_nil, List.append_nil]
    | cons c rest => rw [List.takeWhile_cons, hrest c rfl, if_neg Bool.false_ne_true, List.append_nil]
  have hdrop : (run ++ rest).dropWhile p = rest := by
    rw [List.dropWhile_append_of_pos hrun]
    cases rest with
    | nil => rfl
    | cons c rest => rw [List.dropWhile_cons, hrest c rfl, if_neg Bool.false_ne_true]
  rw [charsOf, htake, hdrop, if_neg hne]

def blanks : List Char := [' ', '\t', Char.ofNat 12, '\r', '\n']

/-- A class without blanks. -/
theorem not_isWs {p : Char → Bool} (hp : blanks.any p = false) {c : Char} (h : p c = true) : isWs c = false := by
  refine Bool.eq_false_iff.mpr fun hws => ?_
  simp only [isWs, Bool.or_eq_true, decide_eq_true_eq] at hws
  have hmem : c ∈ blanks := by
    simp only [blanks, List.mem_cons, List.not_mem_nil, or_false]
    tauto
  exact Bool.false_ne_true (hp.symm.trans (List.any_eq_true.mpr ⟨c, hmem, h⟩))

theorem skipWs_run {p : Char → Bool} (hp : blanks.any p = false) {run : List Char} (hne : run ≠ [])
    (hrun : ∀ c ∈ run, p c = true) : skipWs (run ++ rest) = run ++ rest := by
  cases run with
  | nil => exact absurd rfl hne
  | cons c run =>
    exact skipWs_cons (not_isWs hp (hrun c List.mem_cons_self))

/-! ### Job names -/

/-- What follows a name. -/
def EndsName (rest : List Char) : Prop := ∃ c more, rest = c :: more ∧ c ∈ ['^', ',', ')']

theorem escapedSpan_escape (hrest : EndsName rest) : ∀ name : List Char, (∀ c ∈ name, isNameChar c = true ∨ c = ':') →
    escapedSpan isNameChar (escape name ++ rest) = (escape name, rest)
  | [], _ => by
    obtain ⟨c, more, rfl, hc⟩ := hrest
    have hstop : isNameChar c = false ∧ c ≠ '\\' := by
      simp only [List.mem_cons, List.not_mem_nil, or_false] at hc
      rcases hc with rfl | rfl | rfl <;> decide
    rw [escape, List.nil_append, escapedSpan, hstop.1]
    · rfl
    · rintro rest ⟨⟩
      exact absurd rfl hstop.2
  | c :: name, h => by
    have ih := escapedSpan_escape hrest name fun d hd => h d (List.mem_cons_of_mem c hd)
    rw [escape]
    split_ifs with hcolon
    · rw [List.cons_append, List.cons_append, escapedSpan, ih]
    · have hchar : isNameChar c = true := (h c List.mem_cons_self).resolve_right hcolon
      rw [List.cons_append, escapedSpan, if_pos hchar, ih]
      rintro rest rfl
      exact absurd rfl (not_backslash hchar)

theorem unescape_escape : ∀ name : List Char, (∀ c ∈ name, isNameChar c = true ∨ c = ':') →
    unescape (escape name) = name
  | [], _ => rfl
  | c :: name, h => by
    have ih := unescape_escape name fun d hd => h d (List.mem_cons_of_mem c hd)
    rw [escape]
    split_ifs with hcolon
    · rw [unescape, ih, hcolon]
    · rw [unescape_cons (not_backslash ((h c List.mem_cons_self).resolve_right hcolon)), ih]

theorem escape_ne_nil {name : List Char} (h : name ≠ []) : escape name ≠ [] := by
  cases name with
  | nil => exact absurd rfl h
  | cons c name =>
    rw [escape]
    split_ifs
    all_goals exact List.cons_ne_nil _ _

theorem not_isWs_of_name {c : Char} (h : isNameChar c = true ∨ c = ':') : isWs c = false := by
  rcases h with h | rfl
  · exact not_isWs (by rfl) h
  · rfl

theorem skipWs_escape {name : List Char} (hne : name ≠ []) (h : ∀ c ∈ name, isNameChar c = true ∨ c = ':') :
    skipWs (escape name ++ rest) = escape name ++ rest := by
  cases name with
  | nil => exact absurd rfl hne
  | cons c name =>
    rw [escape]
    split_ifs with hcolon
    · rfl
    · exact skipWs_cons (not_isWs_of_name (h c List.mem_cons_self))

theorem jobName_escape {name : List Char} (rest : List Char) (hrest : EndsName rest) (hne : name ≠ [])
    (h : ∀ c ∈ name, isNameChar c = true ∨ c = ':') :
    jobName (skipWs (escape name ++ rest)) = some (escape name, rest) := by
  rw [skipWs_escape hne h, jobName, escapedSpan_escape hrest name h]
  exact if_neg (escape_ne_nil hne)

/-- A reference is read as the job it names. -/
theorem jobRef_refSource {job : JobRef} (h : JobLexical job) (rest : List Char)
    (hrest : ∃ c more, rest = c :: more ∧ c ∈ [',', ')']) :
    ∃ tree, jobRef (refSource job ++ rest) = some (tree, rest) ∧ tree.build = job := by
  obtain ⟨name, instance_⟩ := job
  obtain ⟨c, more, rfl, hc⟩ := hrest
  have hbuild (instance_ : Option String) :
      (JobTree.mk (String.ofList (escape name.toList)) instance_).build = ⟨name, instance_⟩ := by
    rw [JobTree.build, unescapeJobName, String.toList_ofList, unescape_escape _ h.name_chars, String.ofList_toList]
  have hends : ∀ c' ∈ (c :: more).head?, isInstanceChar c' = false ∧ isWs c' = false ∧ c' ≠ '^' := by
    rintro c' ⟨⟩
    simp only [List.mem_cons, List.not_mem_nil, or_false] at hc
    rcases hc with rfl | rfl <;> exact ⟨rfl, rfl, by decide⟩
  obtain ⟨hinst, hws, hcaret⟩ := hends c rfl
  cases instance_ with
  | none =>
    refine ⟨⟨String.ofList (escape name.toList), none⟩, ?_, hbuild none⟩
    have hname := jobName_escape (c :: more) ⟨c, more, rfl, List.mem_cons_of_mem _ hc⟩ h.name_ne h.name_chars
    rw [refSource, List.append_nil, jobRef, hname]
    simp only [Option.bind_eq_bind, Option.bind_some, punct_cons_ne hws hcaret]
  | some inst =>
    obtain ⟨hne, hchars⟩ := h.instance_chars inst rfl
    refine ⟨⟨String.ofList (escape name.toList), some inst⟩, ?_, hbuild (some inst)⟩
    have hname := jobName_escape ('^' :: (inst.toList ++ c :: more)) ⟨'^', _, rfl, List.mem_cons_self⟩ h.name_ne
      h.name_chars
    rw [refSource, List.append_assoc, List.cons_append, jobRef, hname]
    simp only [Option.bind_eq_bind, Option.bind_some, punct_cons (c := '^') rfl,
      skipWs_run (by rfl) hne hchars,
      charsOf_append hne hchars fun c' hc' => (hends c' hc').1, String.ofList_toList]

/-! ### Lookbacks -/

theorem upTo_append {bound : Nat} {p : Char → Bool} {run : List Char} (hne : run ≠ []) (hlen : run.length ≤ bound)
    (hrun : ∀ c ∈ run, p c = true) (hrest : ∀ c ∈ rest.head?, p c = false) :
    upTo bound p (run ++ rest) = some (run, rest) := by
  have htake : ((run ++ rest).take bound).takeWhile p = run := by
    rw [List.take_append, List.take_of_length_le hlen, List.takeWhile_append_of_pos hrun]
    cases rest with
    | nil => rw [List.take_nil, List.takeWhile_nil, List.append_nil]
    | cons c rest =>
      cases bound - run.length with
      | zero => rw [List.take_zero, List.takeWhile_nil, List.append_nil]
      | succ k => rw [List.take_succ_cons, List.takeWhile_cons, hrest c rfl, if_neg Bool.false_ne_true, List.append_nil]
  rw [upTo, htake, if_neg hne, List.drop_left]

/-- The token of a lookback is read whole. -/
theorem lookbackToken_raw {raw : String} {pos : Nat} {l : Lookback} (h : parseLookback raw pos = .ok l) :
    lookbackToken (raw.toList ++ ')' :: rest) = some (raw.toList, ')' :: rest) := by
  have hgroups : lookbackGroups raw.toList ≠ none := by
    rintro hnone
    rw [parseLookback, hnone] at h
    cases h
  have hstop : ∀ {more : List Char}, ∀ c ∈ (')' :: more).head?, isDecimal c = false := by
    rintro more _ ⟨⟩
    decide
  have hsplit : raw.toList = raw.toList.takeWhile isDecimal ++ raw.toList.dropWhile isDecimal :=
    List.takeWhile_append_dropWhile.symm
  generalize raw.toList = token at *
  unfold lookbackGroups at hgroups
  dsimp only at hgroups
  split_ifs at hgroups with hlen
  swap
  · exact absurd rfl hgroups
  have hhours : ∀ c ∈ token.takeWhile isDecimal, isDecimal c = true := fun c hc => List.mem_takeWhile_imp hc
  generalize token.takeWhile isDecimal = hours at *
  generalize token.dropWhile isDecimal = more at *
  subst hsplit
  have hne : hours ≠ [] := List.length_pos_iff.mp hlen.1
  have hminutes {mm : List Char} (h : (if mm.all isDecimal = true ∧ 1 ≤ mm.length ∧ mm.length ≤ 2 then
      some (hours, some mm) else none) ≠ none) : upTo 2 isDecimal (mm ++ ')' :: rest) = some (mm, ')' :: rest) := by
    split_ifs at h with hmm
    · exact upTo_append (List.length_pos_iff.mp hmm.2.1) hmm.2.2 (List.all_eq_true.mp hmm.1) hstop
    · exact absurd rfl h
  rw [List.append_assoc, lookbackToken]
  split at hgroups
  · rw [List.nil_append, upTo_append hne hlen.2 hhours hstop, List.append_nil]
    rfl
  · rw [List.cons_append, upTo_append hne hlen.2 hhours (by rintro _ ⟨⟩; decide)]
    simp only [Option.bind_eq_bind, Option.bind_some, hminutes hgroups]
  · rw [List.cons_append, List.cons_append, upTo_append hne hlen.2 hhours (by rintro _ ⟨⟩; decide)]
    simp only [Option.bind_eq_bind, Option.bind_some, hminutes hgroups]
  · exact absurd rfl hgroups

theorem parseLookback_pos {raw : String} {pos : Nat} {l : Lookback} (h : parseLookback raw pos = .ok l) (pos' : Nat) :
    parseLookback raw pos' = .ok l := by
  unfold parseLookback at h ⊢
  split at h
  · cases h
  all_goals
    split_ifs at h
    all_goals
      cases h
      simp only [*, if_true, if_false]

theorem lookbackText_raw {raw : String} {pos : Nat} {l : Lookback} (h : parseLookback raw pos = .ok l) :
    lookbackText l = raw.toList := by
  have hne : l.raw ≠ "" := by
    rintro hempty
    rw [← parseLookback_raw h, hempty] at h
    cases h
  rw [lookbackText, if_pos hne, parseLookback_raw h]

theorem parseLookback_head {raw : String} {pos : Nat} {l : Lookback} (h : parseLookback raw pos = .ok l) :
    ∃ c more, raw.toList = c :: more ∧ isDecimal c = true := by
  cases htoken : raw.toList with
  | nil =>
    rw [parseLookback, htoken] at h
    cases h
  | cons c more =>
    refine ⟨c, more, rfl, ?_⟩
    by_contra hc
    rw [parseLookback, htoken, lookbackGroups, List.takeWhile_cons_of_neg hc] at h
    cases h

/-- The parentheses are read as the job and the lookback. -/
theorem jobAndLookback_headSource {job : JobRef} {lookback : Option Lookback} (hjob : JobLexical job)
    (hlookback : LookbackLexical lookback) (total : Nat) (rest : List Char) :
    ∃ tree token, jobAndLookback total (headSource job lookback ++ rest) = some ((tree, token), rest) ∧
      tree.build = job ∧ buildLookback token = .ok lookback := by
  cases lookback with
  | none =>
    obtain ⟨tree, htree, hbuild⟩ := jobRef_refSource hjob (')' :: rest) ⟨_, _, rfl, by decide⟩
    refine ⟨tree, none, ?_, hbuild, rfl⟩
    rw [headSource, List.cons_append, List.append_assoc, List.singleton_append, jobAndLookback]
    simp only [Option.bind_eq_bind, Option.bind_some, punct_cons (c := '(') rfl, htree, lookback?,
      punct_cons_ne (c := ',') (d := ')') rfl (by decide), punct_cons (c := ')') rfl]
  | some l =>
    obtain ⟨pos, hpos⟩ := hlookback l rfl
    obtain ⟨tree, htree, hbuild⟩ := jobRef_refSource hjob (',' :: ' ' :: (l.raw.toList ++ ')' :: rest))
      ⟨_, _, rfl, by decide⟩
    have hskip : skipWs (' ' :: (l.raw.toList ++ ')' :: rest)) = l.raw.toList ++ ')' :: rest := by
      obtain ⟨c, more, hraw, hc⟩ := parseLookback_head hpos
      rw [skipWs_space, hraw, List.cons_append, skipWs_cons (not_isWs (p := isDecimal) (by rfl) hc)]
    refine ⟨tree, some ⟨l.raw, total - (l.raw.toList ++ ')' :: rest).length⟩, ?_, hbuild, ?_⟩
    · rw [headSource, lookbackText_raw hpos]
      simp only [List.cons_append, List.append_assoc, List.nil_append]
      rw [jobAndLookback]
      simp only [Option.bind_eq_bind, Option.bind_some, punct_cons (c := '(') rfl, htree, lookback?,
        punct_cons (c := ',') rfl, hskip, lookbackToken_raw hpos, String.ofList_toList, punct_cons (c := ')') rfl]
    · rw [buildLookback, parseLookback_pos hpos]
      rfl

/-! ### Operators and values -/

theorem cmpOp_text (op : CmpOp) (s : List Char) : cmpOp ((CmpOp.text op).toList ++ ' ' :: s) = some (op, ' ' :: s) := by
  cases op <;> rfl

theorem decimalValue_of_isDigit {c : Char} (h : c.isDigit = true) : decimalValue c = some (c.toNat - '0'.toNat) := by
  have hc : 0x30 ≤ c.toNat ∧ c.toNat < 0x30 + 10 := by
    simp only [Char.isDigit, Bool.and_eq_true, decide_eq_true_eq] at h
    exact ⟨h.1, Nat.lt_succ_of_le h.2⟩
  rw [decimalValue, decimalZeros, List.find?_cons_of_pos (by exact decide_eq_true hc)]
  rfl

theorem intOf_natText (n : Nat) : intOf (natText n) = n := by
  have hfold : ∀ (digits : List Char) (init : Nat), (∀ c ∈ digits, c.isDigit = true) →
      digits.foldl (fun n c => 10 * n + (decimalValue c).getD 0) init = Nat.ofDigitChars 10 digits init := by
    intro digits
    induction digits with
    | nil => exact fun _ _ => rfl
    | cons c digits ih =>
      intro init h
      rw [List.foldl_cons, decimalValue_of_isDigit (h c List.mem_cons_self), Nat.ofDigitChars_cons]
      exact ih _ fun d hd => h d (List.mem_cons_of_mem c hd)
  rw [intOf, natText, hfold _ _ fun c hc => Nat.isDigit_of_mem_toDigits (by decide) (by decide) hc]
  exact Nat.ofDigitChars_ten_toDigits

/-- What follows an operand. -/
def EndsOperand (rest : List Char) : Prop := ∀ c ∈ rest.head?, c = ' ' ∨ c = ')'

theorem isBareChar_of_bare {c : Char} (h : (c.isAlphanum || c = '_' || c = '.' || c = '-') = true) :
    isBareChar c = true ∧ c ≠ '"' ∧ isWs c = false := by
  have hcode : 48 ≤ c.toNat ∧ c.toNat ≤ 57 ∨ 65 ≤ c.toNat ∧ c.toNat ≤ 90 ∨ 97 ≤ c.toNat ∧ c.toNat ≤ 122 ∨
      c.toNat = 95 ∨ c.toNat = 46 ∨ c.toNat = 45 := by
    simp only [Char.isAlphanum, Char.isAlpha, Char.isUpper, Char.isLower, Char.isDigit, Bool.or_eq_true,
      Bool.and_eq_true, decide_eq_true_eq] at h
    rcases h with ((((h | h) | h) | rfl) | rfl) | rfl
    · exact .inr (.inl ⟨h.1, h.2⟩)
    · exact .inr (.inr (.inl ⟨h.1, h.2⟩))
    · exact .inl ⟨h.1, h.2⟩
    all_goals decide
  have hne {d : Char} (hd : d.toNat < 45 ∨ d.toNat = 124) : c ≠ d := by
    rintro rfl
    omega
  have hspace : Jil.isSpace c = false := by
    simp only [Jil.isSpace, Bool.or_eq_false_iff, Bool.and_eq_false_iff, decide_eq_false_iff_not, beq_eq_false_iff_ne]
    omega
  refine ⟨?_, hne (by decide), not_isWs (p := fun c => !Jil.isSpace c) (by rfl) (by rw [hspace]; rfl)⟩
  rw [isBareChar, hspace]
  simp only [hne (d := '(') (by decide), hne (d := ')') (by decide), hne (d := '&') (by decide),
      hne (d := '|') (by decide), decide_false, Bool.or_false, Bool.not_false]

/-- A value is read as itself, bare or quoted. -/
theorem globalValue_valueSource {value : String} (h : valueSource value = .ok s) (hrest : EndsOperand rest) :
    ∃ token, globalValue (skipWs (' ' :: (s ++ rest))) = some (token, rest) ∧ token.build = value := by
  unfold valueSource at h
  split_ifs at h with hbare hquote
  · cases h
    rw [isBareText, Bool.and_eq_true, decide_eq_true_eq] at hbare
    obtain ⟨hne, hall⟩ := hbare
    have hchars c (hc : c ∈ value.toList) := isBareChar_of_bare (List.all_eq_true.mp hall c hc)
    refine ⟨.bare (String.ofList value.toList), ?_, String.ofList_toList⟩
    have hstop : ∀ c ∈ rest.head?, isBareChar c = false := by
      intro c hc
      rcases hrest c hc with rfl | rfl <;> rfl
    have hread := charsOf_append hne (fun c hc => (hchars c hc).1) hstop
    generalize value.toList = l at *
    cases l with
    | nil => exact absurd rfl hne
    | cons c l =>
      obtain ⟨-, hquote, hws⟩ := hchars c List.mem_cons_self
      have hnone : quoted (c :: (l ++ rest)) = none := by
        unfold quoted
        split
        · next heq => exact absurd (List.cons.inj heq).1 hquote
        · rfl
      rw [skipWs_space, List.cons_append, skipWs_cons hws, globalValue, hnone]
      dsimp only
      rw [← List.cons_append, hread]
      rfl
  · cases h
    have hclass : ∀ c ∈ value.toList, (c ≠ '"' : Bool) = true := by
      intro c hc
      refine decide_eq_true fun heq => hquote (heq ▸ hc)
    have hread : quoted ('"' :: (value.toList ++ ['"'] ++ rest)) = some ('"' :: (value.toList ++ ['"']), rest) := by
      have hdrop : (value.toList ++ '"' :: rest).dropWhile (· ≠ '"') = '"' :: rest := by
        rw [List.dropWhile_append_of_pos hclass]
        rfl
      have htake : (value.toList ++ '"' :: rest).takeWhile (· ≠ '"') = value.toList := by
        rw [List.takeWhile_append_of_pos hclass]
        exact List.append_nil _
      rw [List.append_assoc, List.singleton_append, quoted, hdrop]
      dsimp only
      rw [htake]
    refine ⟨.quoted (String.ofList ('"' :: (value.toList ++ ['"']))), ?_, ?_⟩
    · rw [skipWs_space, List.cons_append, skipWs_cons rfl, globalValue, hread]
    · rw [ValueToken.build, String.toList_ofList, List.drop_one, List.tail_cons, List.dropLast_concat,
        String.ofList_toList]

/-! ### Atoms -/

theorem operand_atom {c : Char} {more : List Char} {a : AtomTree} (hws : isWs c = false) (hne : c ≠ '(')
    (h : atom total (c :: more) = some (a, rest)) (fuel : Nat) :
    operand total (fuel + 1) (c :: more) = some (.atom a (spanOf total (c :: more) rest), rest) := by
  rw [operand, skipWs_cons hws]
  split
  · next heq => exact absurd (List.cons.inj heq).1 hne
  · next heq =>
    rw [h]
    rfl

theorem headSource_open (job : JobRef) (lookback : Option Lookback) : ∃ t, headSource job lookback = '(' :: t := ⟨_, rfl⟩

theorem keyword_status (st : AtomStatus) (s : List Char) :
    oneOf STATUS_KW (statusLetter st :: '(' :: s) = some ([statusLetter st], '(' :: s) := by
  cases st <;> rfl

theorem lookup_status (st : AtomStatus) : statusByKw.lookup (lower (String.ofList [statusLetter st])) = some st := by
  rw [lower, String.toList_ofList]
  cases st <;> decide

/-- The rendering of a status is read as the status. -/
theorem atom_status {job : JobRef} (total : Nat) (rest : List Char) (st : AtomStatus) {lookback : Option Lookback} (hjob : JobLexical job)
    (hlookback : LookbackLexical lookback) :
    ∃ a, atom total (statusLetter st :: (headSource job lookback ++ rest)) = some (a, rest) ∧
      ∀ span, a.build span = .ok (.status job st lookback span) := by
  obtain ⟨tree, token, hread, hbuild, hbuild'⟩ := jobAndLookback_headSource hjob hlookback total rest
  refine ⟨.status_atom (String.ofList [statusLetter st]) tree token, ?_, fun span => ?_⟩
  · have hstatus : statusAtom total (statusLetter st :: (headSource job lookback ++ rest)) =
        some (.status_atom (String.ofList [statusLetter st]) tree token, rest) := by
      obtain ⟨t, ht⟩ := headSource_open job lookback
      rw [ht, List.cons_append] at hread ⊢
      rw [statusAtom, keyword_status]
      simp only [Option.bind_eq_bind, Option.bind_some, hread]
    rw [atom, hstatus]
    rfl
  · rw [AtomTree.build, hbuild', lookup_status, hbuild]
    rfl

theorem atom_exitcode {job : JobRef} (total : Nat) (op : CmpOp) (value : Nat) {lookback : Option Lookback} (hjob : JobLexical job)
    (hlookback : LookbackLexical lookback) (hrest : EndsOperand rest) :
    ∃ a, atom total ('e' :: (headSource job lookback ++ ' ' :: ((CmpOp.text op).toList ++ ' ' :: (intText value ++ rest)))) =
        some (a, rest) ∧ ∀ span, a.build span = .ok (.exitcode job op value lookback span) := by
  obtain ⟨tree, token, hread, hbuild, hbuild'⟩ := jobAndLookback_headSource hjob hlookback total
    (' ' :: ((CmpOp.text op).toList ++ ' ' :: (intText value ++ rest)))
  refine ⟨.exitcode_atom (String.ofList ['e']) tree token op (String.ofList (natText value)), ?_, fun span => ?_⟩
  · have hstop : ∀ c ∈ rest.head?, c.isDigit = false := by
      intro c hc
      rcases hrest c hc with rfl | rfl <;> rfl
    have hdigits : ∀ c ∈ natText value, c.isDigit = true := fun c hc =>
      Nat.isDigit_of_mem_toDigits (by decide) (by decide) hc
    have hne : natText value ≠ [] := Nat.toDigits_ne_nil
    have hvalue : skipWs (' ' :: (natText value ++ rest)) = natText value ++ rest := by
      exact skipWs_run (by rfl) hne hdigits
    have hop : skipWs (' ' :: ((CmpOp.text op).toList ++ ' ' :: (natText value ++ rest))) =
        (CmpOp.text op).toList ++ ' ' :: (natText value ++ rest) := by
      cases op <;> rfl
    obtain ⟨t, ht⟩ := headSource_open job lookback
    have hstatus : statusAtom total ('e' :: '(' :: (t ++ ' ' :: ((CmpOp.text op).toList ++ ' ' :: (natText value ++ rest)))) =
      none := rfl
    have hkw (s : List Char) : oneOf EXITCODE_KW ('e' :: '(' :: s) = some (['e'], '(' :: s) := rfl
    have hint : intText value = natText value := rfl
    rw [hint] at hread ⊢
    rw [ht, List.cons_append] at hread ⊢
    rw [atom, hstatus, Option.none_or, exitcodeAtom, hkw]
    simp only [Option.bind_eq_bind, Option.bind_some, hread, hop, cmpOp_text, hvalue, charsOf_append hne hdigits hstop,
      Option.some_or]
  · rw [AtomTree.build, hbuild', hbuild, String.toList_ofList, intOf_natText]
    rfl

theorem atom_global {name value : String} (total : Nat) (op : CmpOp) (hne : name.toList ≠ [])
    (hname : ∀ c ∈ name.toList, isGlobalChar c = true) (h : valueSource value = .ok s) (hrest : EndsOperand rest) :
    ∃ a, atom total ('v' :: '(' :: (name.toList ++ ')' :: ' ' :: ((CmpOp.text op).toList ++ ' ' :: (s ++ rest)))) =
        some (a, rest) ∧ ∀ span, a.build span = .ok (.global name op value span) := by
  obtain ⟨token, hread, hbuild⟩ := globalValue_valueSource h hrest
  refine ⟨.global_atom (String.ofList ['v']) (String.ofList name.toList) op token, ?_, fun span => ?_⟩
  · have hchars : skipWs (name.toList ++ ')' :: ' ' :: ((CmpOp.text op).toList ++ ' ' :: (s ++ rest))) =
        name.toList ++ ')' :: ' ' :: ((CmpOp.text op).toList ++ ' ' :: (s ++ rest)) := by
      exact skipWs_run (by rfl) hne hname
    have hstop : ∀ c ∈ (')' :: ' ' :: ((CmpOp.text op).toList ++ ' ' :: (s ++ rest))).head?, isGlobalChar c = false := by
      rintro c ⟨⟩
      rfl
    have hop : skipWs (' ' :: ((CmpOp.text op).toList ++ ' ' :: (s ++ rest))) =
        (CmpOp.text op).toList ++ ' ' :: (s ++ rest) := by
      cases op <;> rfl
    have hkw (s : List Char) : statusAtom total ('v' :: s) = none ∧ exitcodeAtom total ('v' :: s) = none ∧
        oneOf VALUE_KW ('v' :: '(' :: s) = some (['v'], '(' :: s) := ⟨rfl, rfl, rfl⟩
    rw [atom, (hkw _).1, (hkw _).2.1, Option.none_or, Option.none_or, globalAtom, (hkw _).2.2]
    simp only [Option.bind_eq_bind, Option.bind_some, punct_cons (c := '(') rfl, hchars,
      charsOf_append hne hname hstop, punct_cons (c := ')') rfl, hop, cmpOp_text, hread]
  · rw [AtomTree.build, hbuild, String.ofList_toList]
    rfl

end Reading

end Dsl41.Conditions
