import Dsl41.Conditions.Tokens
import Dsl41.Minify.Rewrite

/-!
# How an atom is spelled

An atom of a condition text in the pieces a renaming needs: what stands before its names, the names, and
what stands between and after. The parser takes an atom just when its text is so spelled.
-/

namespace Dsl41.Minify

open Infra Conditions

/-! ## The pieces -/

/-- A job reference: blanks, the name with its escapes and, where it has one, the instance, with the
blanks before its caret and after. -/
structure RefText where
  lead : List Char
  name : List Char
  suffix : Option (List Char × List Char × List Char)

def RefText.text (r : RefText) : List Char :=
  r.lead ++ (r.name ++ match r.suffix with
    | none => []
    | some (before, after, inst) => before ++ '^' :: (after ++ inst))

def RefText.tree (r : RefText) : JobTree where
  name := String.ofList r.name
  instance_ := r.suffix.map fun suffix => String.ofList suffix.2.2

def valueText : ValueToken → List Char
  | .quoted text | .bare text => text.toList

inductive AtomText where
  | job (head : List Char) (ref : RefText) (tail : List Char)
  | global (head name between : List Char) (value : ValueToken)

def AtomText.text : AtomText → List Char
  | job head ref tail => head ++ (ref.text ++ tail)
  | global head name between value => head ++ (name ++ (between ++ valueText value))

/-! ## Reading them -/

def readRef (s : List Char) : Option (RefText × List Char) := do
  let (name, rest) ← jobName (skipWs s)
  match punct '^' rest with
  | some after => do
    let (inst, after') ← charsOf isInstanceChar (skipWs after)
    some (⟨s.takeWhile isWs, name, some (rest.takeWhile isWs, after.takeWhile isWs, inst)⟩, after')
  | none => some (⟨s.takeWhile isWs, name, none⟩, rest)

/-- What stands before a rest. -/
def consumed (s rest : List Char) : List Char := s.take (s.length - rest.length)

/-- The pieces of the atom that a text begins with. -/
def readAtom (s : List Char) : Option (AtomText × List Char) := do
  let (tree, rest) ← atom 0 s
  match tree with
  | .global_atom _ _ _ value => do
    let (_, opened) ← oneOf VALUE_KW s
    let opened ← punct '(' opened
    let (name, named) ← charsOf isGlobalChar (skipWs opened)
    let closed ← punct ')' named
    let (_, compared) ← cmpOp (skipWs closed)
    some (.global (consumed s (skipWs opened)) name (consumed named (skipWs compared)) value, rest)
  | _ => do
    let (_, opened) ← oneOf (STATUS_KW ++ EXITCODE_KW) s
    let opened ← punct '(' opened
    let (ref, tail) ← readRef opened
    some (.job (consumed s opened) ref (consumed tail rest), rest)

/-! ## Blanks -/

section Tokens

variable {s rest rest' u blanks : List Char} {c : Char} {total : Nat}

def Blank (blanks : List Char) : Prop := ∀ c ∈ blanks, isWs c = true

theorem blank_takeWhile (s : List Char) : Blank (s.takeWhile isWs) := fun _ => List.mem_takeWhile_imp

theorem skipWs_blank (h : Blank blanks) : skipWs (blanks ++ s) = skipWs s :=
  List.dropWhile_append_of_pos h

theorem blanks_skipWs (s : List Char) : s.takeWhile isWs ++ skipWs s = s := List.takeWhile_append_dropWhile

theorem takeWhile_blank (h : Blank blanks) (hc : isWs c = false) :
    (blanks ++ c :: s).takeWhile isWs = blanks := by
  rw [List.takeWhile_append_of_pos h, List.takeWhile_cons_of_neg (by rw [hc]; exact Bool.false_ne_true),
    List.append_nil]

theorem consumed_append : consumed (u ++ rest) rest = u := by
  rw [consumed, List.length_append, Nat.add_sub_cancel, List.take_left]

/-- A character stands after blanks. -/
theorem punct_eq_some (hc : isWs c = false) :
    punct c s = some rest ↔ ∃ blanks, Blank blanks ∧ s = blanks ++ c :: rest := by
  constructor
  · intro h
    unfold punct at h
    split at h
    · next d after heq =>
      split_ifs at h with hd
      cases h
      refine ⟨s.takeWhile isWs, blank_takeWhile s, ?_⟩
      rw [← hd, ← heq, blanks_skipWs]
    · cases h
  · rintro ⟨blanks, hblank, rfl⟩
    rw [punct, skipWs_blank hblank, skipWs_cons hc]
    exact if_pos rfl

theorem punct_none {d : Char} (hblank : Blank blanks) (hd : isWs d = false) (hne : d ≠ c) :
    punct c (blanks ++ d :: rest) = none := by
  rw [punct, skipWs_blank hblank, skipWs_cons hd]
  exact if_neg hne

theorem charsOf_split {p : Char → Bool} {run : List Char} (h : charsOf p s = some (run, rest)) :
    s = run ++ rest ∧ run ≠ [] ∧ (∀ c ∈ run, p c = true) ∧ ∀ c ∈ rest.head?, p c = false := by
  obtain ⟨hne, hrun⟩ := charsOf_spec h
  unfold charsOf at h
  split_ifs at h
  cases h
  refine ⟨List.takeWhile_append_dropWhile.symm, hne, hrun, fun c hc => ?_⟩
  cases hrest : s.dropWhile p with
  | nil =>
    rw [hrest] at hc
    cases hc
  | cons d more =>
    rw [hrest] at hc
    cases hc
    have hhead := List.head_dropWhile_not p (l := s) (by rw [hrest]; exact List.cons_ne_nil _ _)
    simp only [hrest, List.head_cons] at hhead
    exact hhead

/-! ## Keywords -/

/-- A word stops before a character that is none of its letters. -/
theorem takeWord_stop : ∀ {word u : List Char}, (∀ k ∈ word, sameLetter k c = false) →
    takeWord word (u ++ c :: s) = (takeWord word u).map fun taken => (taken.1, taken.2 ++ c :: s)
  | [], u, _ => rfl
  | k :: word, [], h => by
    rw [List.nil_append, takeWord, h k List.mem_cons_self]
    rfl
  | k :: word, d :: u, h => by
    rw [List.cons_append, takeWord, takeWord]
    split_ifs
    · rw [takeWord_stop fun k' hk' => h k' (List.mem_cons_of_mem k hk'), Option.map_map, Option.map_map]
      rfl
    · rfl

theorem oneOf_stop {words : List (List Char)} (h : ∀ word ∈ words, ∀ k ∈ word, sameLetter k c = false) :
    oneOf words (u ++ c :: s) = (oneOf words u).map fun taken => (taken.1, taken.2 ++ c :: s) := by
  induction words with
  | nil => rfl
  | cons word words ih =>
    have hword := takeWord_stop (u := u) (s := s) (h word List.mem_cons_self)
    have hwords := ih fun w hw => h w (List.mem_cons_of_mem word hw)
    rw [oneOf, oneOf] at hwords ⊢
    rw [List.findSome?_cons, List.findSome?_cons, hword]
    cases takeWord word u with
    | none => exact hwords
    | some taken => rfl

theorem takeWord_split {word taken : List Char} (h : takeWord word s = some (taken, rest)) :
    s = taken ++ rest ∧ List.Forall₂ (fun k c => sameLetter k c = true) word taken := by
  induction word generalizing s taken with
  | nil =>
    cases h
    exact ⟨rfl, .nil⟩
  | cons k word ih =>
    cases s with
    | nil => cases h
    | cons c s =>
      rw [takeWord] at h
      split_ifs at h with hletter
      obtain ⟨⟨taken', rest'⟩, htaken, heq⟩ := Option.map_eq_some_iff.mp h
      cases heq
      obtain ⟨hs, hall⟩ := ih htaken
      exact ⟨by rw [hs]; rfl, .cons hletter hall⟩

theorem oneOf_split {words : List (List Char)} {taken : List Char} (h : oneOf words s = some (taken, rest)) :
    s = taken ++ rest ∧ ∃ word ∈ words, List.Forall₂ (fun k c => sameLetter k c = true) word taken := by
  obtain ⟨word, hmem, hword⟩ := List.exists_of_findSome?_eq_some h
  obtain ⟨hs, hall⟩ := takeWord_split hword
  exact ⟨hs, word, hmem, hall⟩

/-- What may stand after a keyword is no letter of one. -/
def Letters (words : List (List Char)) : Prop :=
  ∀ c ∈ '(' :: Conditions.blanks, ∀ word ∈ words, ∀ k ∈ word, sameLetter k c = false

theorem letters_of_all {words : List (List Char)}
    (h : ('(' :: Conditions.blanks).all (fun c => words.all fun word => word.all fun k => !sameLetter k c) = true) :
    Letters words := by
  intro c hc word hword k hk
  have hword' := List.all_eq_true.mp (List.all_eq_true.mp h c hc) word hword
  simpa using List.all_eq_true.mp hword' k hk

theorem letters_keywords : Letters STATUS_KW ∧ Letters EXITCODE_KW ∧ Letters VALUE_KW :=
  ⟨letters_of_all (by decide), letters_of_all (by decide), letters_of_all (by decide)⟩

theorem mem_blanks (h : isWs c = true) : c ∈ Conditions.blanks := by
  simp only [isWs, Bool.or_eq_true, decide_eq_true_eq] at h
  simp only [Conditions.blanks, List.mem_cons, List.not_mem_nil, or_false]
  tauto

/-- A keyword is read before blanks and a parenthesis as it is read alone. -/
theorem oneOf_paren {words : List (List Char)} (hwords : Letters words) (hblank : Blank blanks) :
    oneOf words (u ++ (blanks ++ '(' :: s)) =
      (oneOf words u).map fun taken => (taken.1, taken.2 ++ (blanks ++ '(' :: s)) := by
  cases blanks with
  | nil => exact oneOf_stop (hwords '(' List.mem_cons_self)
  | cons c blanks =>
    exact oneOf_stop (hwords c (List.mem_cons_of_mem _ (mem_blanks (hblank c List.mem_cons_self))))

/-- The keyword and the parenthesis an atom opens with. -/
structure Opens (words : List (List Char)) (kw blanks : List Char) : Prop where
  keyword : oneOf words kw = some (kw, [])
  blank : Blank blanks

theorem opens_split {words : List (List Char)} {kw opened : List Char} (hwords : Letters words)
    (hkw : oneOf words s = some (kw, opened)) (hopen : punct '(' opened = some rest) :
    ∃ blanks, Opens words kw blanks ∧ s = kw ++ (blanks ++ '(' :: rest) := by
  obtain ⟨blanks, hblank, rfl⟩ := (punct_eq_some rfl).mp hopen
  obtain ⟨rfl, -⟩ := oneOf_split hkw
  refine ⟨blanks, ⟨?_, hblank⟩, rfl⟩
  rw [oneOf_paren hwords hblank] at hkw
  obtain ⟨⟨taken, more⟩, htaken, heq⟩ := Option.map_eq_some_iff.mp hkw
  have hmore : more = [] := by
    have hlength := congrArg (fun p => p.2.length) heq
    simp only [List.length_append] at hlength
    exact List.length_eq_zero_iff.mp (by omega)
  have hkw' : taken = kw := (Prod.mk.inj heq).1
  rw [htaken, hmore, hkw']

theorem Opens.read {words : List (List Char)} {kw : List Char} (hwords : Letters words)
    (h : Opens words kw blanks) (rest : List Char) :
    oneOf words (kw ++ (blanks ++ '(' :: rest)) = some (kw, blanks ++ '(' :: rest) ∧
      punct '(' (blanks ++ '(' :: rest) = some rest := by
  refine ⟨?_, (punct_eq_some rfl).mpr ⟨blanks, h.blank, rfl⟩⟩
  rw [oneOf_paren hwords h.blank, h.keyword]
  rfl

/-! ## References -/

theorem escapedSpan_split : ∀ s : List Char,
    s = (escapedSpan isNameChar s).1 ++ (escapedSpan isNameChar s).2 ∧
      escapedSpan isNameChar (escapedSpan isNameChar s).1 = ((escapedSpan isNameChar s).1, []) := by
  intro s
  fun_induction escapedSpan isNameChar s with
  | case1 rest name rest' heq ih =>
    rw [heq] at ih
    refine ⟨congrArg (fun l => '\\' :: ':' :: l) ih.1, ?_⟩
    rw [escapedSpan, ih.2]
  | case2 c rest hne hchar name rest' heq ih =>
    rw [heq] at ih
    refine ⟨congrArg (c :: ·) ih.1, ?_⟩
    rw [escapedSpan, if_pos hchar, ih.2]
    rintro more rfl
    exact absurd rfl (not_backslash hchar)
  | case3 c rest hne hchar => exact ⟨rfl, rfl⟩
  | case4 => exact ⟨rfl, rfl⟩

theorem escapedSpan_append (hrest : ∀ c ∈ rest.head?, isNameChar c = false ∧ c ≠ '\\') : ∀ u : List Char,
    escapedSpan isNameChar u = (u, []) → escapedSpan isNameChar (u ++ rest) = (u, rest) := by
  intro u
  fun_induction escapedSpan isNameChar u with
  | case1 more name rest' heq ih =>
    intro h
    obtain ⟨hname, hnil⟩ := Prod.mk.inj h
    have hmore : name = more := (List.cons.inj (List.cons.inj hname).2).2
    rw [hmore, hnil] at heq
    rw [List.cons_append, List.cons_append, escapedSpan, ih heq]
  | case2 c more hne hchar name rest' heq ih =>
    intro h
    obtain ⟨hname, hnil⟩ := Prod.mk.inj h
    have hmore : name = more := (List.cons.inj hname).2
    rw [hmore, hnil] at heq
    rw [List.cons_append, escapedSpan, if_pos hchar, ih heq]
    rintro more rfl
    exact absurd rfl (not_backslash hchar)
  | case3 c more hne hchar =>
    intro h
    cases h
  | case4 =>
    intro _
    cases rest with
    | nil => rfl
    | cons c rest =>
      obtain ⟨hchar, hslash⟩ := hrest c rfl
      rw [List.nil_append, escapedSpan, hchar]
      · rfl
      · rintro more rfl
        exact absurd rfl hslash

/-- The name of a job as the terminal takes it. -/
structure NameText (name : List Char) : Prop where
  ne : name ≠ []
  whole : escapedSpan isNameChar name = (name, [])

theorem NameText.read {name : List Char} (h : NameText name)
    (hrest : ∀ c ∈ rest.head?, isNameChar c = false ∧ c ≠ '\\') : jobName (name ++ rest) = some (name, rest) := by
  rw [jobName, escapedSpan_append hrest name h.whole]
  exact if_neg h.ne

theorem jobName_split {name : List Char} (h : jobName s = some (name, rest)) :
    s = name ++ rest ∧ NameText name := by
  unfold jobName at h
  dsimp only at h
  split_ifs at h with hne
  cases h
  exact ⟨(escapedSpan_split s).1, hne, (escapedSpan_split s).2⟩

theorem NameText.head {name : List Char} (h : NameText name) : ∃ c more, name = c :: more ∧ isWs c = false := by
  cases name with
  | nil => exact absurd rfl h.ne
  | cons c more =>
    refine ⟨c, more, rfl, Bool.eq_false_iff.mpr fun hws => ?_⟩
    have hc : isNameChar c = false ∧ c ≠ '\\' := by
      have hmem := mem_blanks hws
      simp only [Conditions.blanks, List.mem_cons, List.not_mem_nil, or_false] at hmem
      rcases hmem with rfl | rfl | rfl | rfl | rfl <;> decide
    have hwhole := h.whole
    rw [escapedSpan, hc.1] at hwhole
    · cases hwhole
    · rintro rest rfl
      exact absurd rfl hc.2

structure RefText.Ok (r : RefText) : Prop where
  lead : Blank r.lead
  name : NameText r.name
  suffix : ∀ x ∈ r.suffix, Blank x.1 ∧ Blank x.2.1 ∧ x.2.2 ≠ [] ∧ ∀ c ∈ x.2.2, isInstanceChar c = true

/-- What follows a reference. -/
def EndsRef (rest : List Char) : Prop :=
  ∃ blanks c more, rest = blanks ++ c :: more ∧ Blank blanks ∧ c ∈ [',', ')']

theorem stops_name {c : Char} (hblank : Blank blanks) (hc : c ∈ ['^', ',', ')']) :
    ∀ d ∈ (blanks ++ c :: s).head?, isNameChar d = false ∧ d ≠ '\\' := by
  have hall : (['^', ',', ')'] ++ Conditions.blanks).all (fun d => !isNameChar d && d ≠ '\\') = true := by decide
  have hstop : ∀ d ∈ ['^', ',', ')'] ++ Conditions.blanks, isNameChar d = false ∧ d ≠ '\\' := fun d hd => by
    simpa using List.all_eq_true.mp hall d hd
  cases blanks with
  | nil =>
    rintro d ⟨⟩
    exact hstop c (List.mem_append_left _ hc)
  | cons b blanks =>
    rintro d ⟨⟩
    exact hstop b (List.mem_append_right _ (mem_blanks (hblank b List.mem_cons_self)))

theorem stops_instance (h : EndsRef rest) : ∀ d ∈ rest.head?, isInstanceChar d = false := by
  have hall : ([',', ')'] ++ Conditions.blanks).all (fun d => !isInstanceChar d) = true := by decide
  have hstop : ∀ d ∈ [',', ')'] ++ Conditions.blanks, isInstanceChar d = false := fun d hd => by
    simpa using List.all_eq_true.mp hall d hd
  obtain ⟨blanks, c, more, rfl, hblank, hc⟩ := h
  cases blanks with
  | nil =>
    rintro d ⟨⟩
    exact hstop c (List.mem_append_left _ hc)
  | cons b blanks =>
    rintro d ⟨⟩
    exact hstop b (List.mem_append_right _ (mem_blanks (hblank b List.mem_cons_self)))

theorem skipWs_head {c : Char} (hblank : Blank blanks) (hc : isWs c = false) :
    skipWs (blanks ++ c :: s) = c :: s := by
  rw [skipWs_blank hblank, skipWs_cons hc]

theorem instance_head {inst : List Char} (hne : inst ≠ []) (h : ∀ c ∈ inst, isInstanceChar c = true) :
    ∃ c more, inst = c :: more ∧ isWs c = false := by
  cases inst with
  | nil => exact absurd rfl hne
  | cons c more => exact ⟨c, more, rfl, not_isWs (by rfl) (h c List.mem_cons_self)⟩

/-- A reference that is spelled so is read so. -/
theorem RefText.Ok.read {r : RefText} (h : r.Ok) (hrest : EndsRef rest) :
    jobRef (r.text ++ rest) = some (r.tree, rest) ∧ readRef (r.text ++ rest) = some (r, rest) := by
  obtain ⟨lead, name, suffix⟩ := r
  obtain ⟨c, more, hname, hc⟩ := h.name.head
  dsimp only at hname
  cases suffix with
  | none =>
    obtain ⟨blanks, d, after, rfl, hblank, hd⟩ := hrest
    have hread : jobName (name ++ (blanks ++ d :: after)) = some (name, blanks ++ d :: after) :=
      h.name.read (stops_name hblank (List.mem_cons_of_mem _ hd))
    have hws : isWs d = false ∧ d ≠ '^' := by
      simp only [List.mem_cons, List.not_mem_nil, or_false] at hd
      rcases hd with rfl | rfl <;> decide
    have hskip : skipWs (lead ++ (name ++ (blanks ++ d :: after))) = name ++ (blanks ++ d :: after) := by
      rw [hname]
      exact skipWs_head h.lead hc
    have hlead : (lead ++ (name ++ (blanks ++ d :: after))).takeWhile isWs = lead := by
      rw [hname]
      exact takeWhile_blank h.lead hc
    have hnone : punct '^' (blanks ++ d :: after) = none := punct_none hblank hws.1 hws.2
    simp only [RefText.text, List.append_nil, List.append_assoc, jobRef, readRef, hskip, hlead, hread, hnone,
      Option.bind_eq_bind, Option.bind_some]
    exact ⟨rfl, trivial⟩
  | some x =>
    obtain ⟨before, after, inst⟩ := x
    obtain ⟨hbefore, hafter, hne, hchars⟩ := h.suffix _ rfl
    obtain ⟨e, rest', hinst, he⟩ := instance_head hne hchars
    dsimp only at hinst hbefore hafter hne hchars
    have hread : jobName (name ++ (before ++ '^' :: (after ++ (inst ++ rest)))) =
        some (name, before ++ '^' :: (after ++ (inst ++ rest))) := h.name.read (stops_name hbefore List.mem_cons_self)
    have hskip : skipWs (lead ++ (name ++ (before ++ '^' :: (after ++ (inst ++ rest))))) =
        name ++ (before ++ '^' :: (after ++ (inst ++ rest))) := by
      rw [hname]
      exact skipWs_head h.lead hc
    have hlead : (lead ++ (name ++ (before ++ '^' :: (after ++ (inst ++ rest))))).takeWhile isWs = lead := by
      rw [hname]
      exact takeWhile_blank h.lead hc
    have hcaret : punct '^' (before ++ '^' :: (after ++ (inst ++ rest))) = some (after ++ (inst ++ rest)) :=
      (punct_eq_some rfl).mpr ⟨before, hbefore, rfl⟩
    have hskip' : skipWs (after ++ (inst ++ rest)) = inst ++ rest := by
      rw [hinst]
      exact skipWs_head hafter he
    have hafter' : (after ++ (inst ++ rest)).takeWhile isWs = after := by
      rw [hinst]
      exact takeWhile_blank hafter he
    have hbefore' : (before ++ '^' :: (after ++ (inst ++ rest))).takeWhile isWs = before :=
      takeWhile_blank hbefore rfl
    have hchars' := charsOf_append hne hchars (stops_instance hrest)
    simp only [RefText.text, List.append_assoc, List.cons_append, jobRef, readRef, hskip, hlead, hread, hcaret,
      hskip', hafter', hbefore', hchars', Option.bind_eq_bind, Option.bind_some]
    exact ⟨rfl, trivial⟩

/-- A reference that is read is spelled so. -/
theorem jobRef_split {job : JobTree} (h : jobRef s = some (job, rest)) :
    ∃ r : RefText, r.Ok ∧ s = r.text ++ rest ∧ job = r.tree := by
  obtain ⟨⟨name, named⟩, hname, h⟩ := Option.bind_eq_some_iff.mp h
  obtain ⟨hs, htext⟩ := jobName_split hname
  have hall : s = s.takeWhile isWs ++ (name ++ named) := by
    rw [← hs, blanks_skipWs]
  dsimp only at h
  split at h
  · next after hcaret =>
    obtain ⟨before, hbefore, rfl⟩ := (punct_eq_some rfl).mp hcaret
    obtain ⟨⟨inst, after'⟩, hinst, h⟩ := Option.bind_eq_some_iff.mp h
    cases h
    obtain ⟨hafter, hne, hchars, -⟩ := charsOf_split hinst
    refine ⟨⟨s.takeWhile isWs, name, some (before, after.takeWhile isWs, inst)⟩,
      ⟨blank_takeWhile s, htext, ?_⟩, ?_, rfl⟩
    · rintro x ⟨⟩
      exact ⟨hbefore, blank_takeWhile after, hne, hchars⟩
    · have hsplit : after.takeWhile isWs ++ (inst ++ after') = after := by
        rw [← hafter, blanks_skipWs]
      simp only [RefText.text, List.append_assoc, List.cons_append, hsplit]
      exact hall
  · cases h
    refine ⟨⟨s.takeWhile isWs, name, none⟩, ⟨blank_takeWhile s, htext, nofun⟩, ?_, rfl⟩
    simp only [RefText.text, List.append_nil, List.append_assoc]
    exact hall

end Tokens

end Dsl41.Minify
