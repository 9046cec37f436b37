import Dsl41.Infra.Json.Reader
import Dsl41.Infra.Result

/-!
# The texts a JSON reader takes

`Spells` is the grammar of the texts that have no blank between their tokens and no float. The
reader takes such a text to the value it spells, whatever follows it that does not continue a
number.
-/

namespace Dsl41.Infra.Json

variable {ε α : Type} {b : Builder ε α} {t u rest : Str} {n : Nat}

/-! ## The grammar -/

inductive SpellsCode : Str → Code → Prop
  | plain {c : Char} : c ≠ '"' → c ≠ '\\' → 0x20 ≤ c.toNat → SpellsCode [.scalar c] (.scalar c)
  | short {e c : Char} : shortEscapes.lookup e = some c →
      SpellsCode [.scalar '\\', .scalar e] (.scalar c)
  | unicode {a b c d : Code} {n : Nat} : hexQuad a b c d = some n → n < 0xD800 →
      SpellsCode [.scalar '\\', .scalar 'u', a, b, c, d] (.ofNat n)

/-- The text of a string between its quotes. -/
inductive SpellsString : Str → Str → Prop
  | nil : SpellsString [] []
  | cons {t u s : Str} {c : Code} : SpellsCode t c → SpellsString u s →
      SpellsString (t ++ u) (c :: s)

def natText (n : Nat) : List Char := Nat.toDigits 10 n

def intText (i : Int) : List Char := if i < 0 then '-' :: natText i.natAbs else natText i.natAbs

mutual

inductive Spells (b : Builder ε α) : Str → α → Prop
  | null : Spells b (ofChars "null".toList) b.null
  | isTrue : Spells b (ofChars "true".toList) (b.bool true)
  | isFalse : Spells b (ofChars "false".toList) (b.bool false)
  | int (i : Int) : Spells b (ofChars (intText i)) (b.int i)
  | str {t s : Str} : SpellsString t s → Spells b (.scalar '"' :: (t ++ [.scalar '"'])) (b.str s)
  | empty : Spells b [.scalar '[', .scalar ']'] (b.list [])
  | list {t : Str} {vs : List α} : SpellsItems b t vs →
      Spells b (.scalar '[' :: (t ++ [.scalar ']'])) (b.list vs)
  | bare {v : α} : b.object [] = .ok v → Spells b [.scalar '\x7b', .scalar '\x7d'] v
  | object {t : Str} {ps : List (Str × α)} {v : α} : SpellsMembers b t ps → b.object ps = .ok v →
      Spells b (.scalar '\x7b' :: (t ++ [.scalar '\x7d'])) v

/-- One item or more, with commas between them. -/
inductive SpellsItems (b : Builder ε α) : Str → List α → Prop
  | single {t : Str} {v : α} : Spells b t v → SpellsItems b t [v]
  | cons {t u : Str} {v : α} {vs : List α} : Spells b t v → SpellsItems b u vs →
      SpellsItems b (t ++ .scalar ',' :: u) (v :: vs)

/-- One member or more, with commas between them. -/
inductive SpellsMembers (b : Builder ε α) : Str → List (Str × α) → Prop
  | single {t u key : Str} {v : α} : SpellsString t key → Spells b u v →
      SpellsMembers b (.scalar '"' :: (t ++ .scalar '"' :: .scalar ':' :: u)) [(key, v)]
  | cons {t u w key : Str} {v : α} {ps : List (Str × α)} : SpellsString t key → Spells b u v →
      SpellsMembers b w ps →
      SpellsMembers b (.scalar '"' :: (t ++ .scalar '"' :: .scalar ':' :: (u ++ .scalar ',' :: w)))
        ((key, v) :: ps)

end

/-! ## Strings -/

theorem SpellsCode.length_pos {c : Code} (h : SpellsCode t c) : 0 < t.length := by
  cases h <;> simp

theorem SpellsCode.not_quote {c : Code} (h : SpellsCode t c) :
    ∀ rest', t ++ u ≠ .scalar '"' :: rest' := by
  cases h with
  | plain hq => simp [hq]
  | short => simp
  | unicode => simp

theorem scanUnicode_ok {w x y z : Code} (h : hexQuad w x y z = some n) (hn : ¬(0xD800 ≤ n ∧ n < 0xDC00)) :
    scanUnicode (w :: x :: y :: z :: rest) = some (.ofNat n, rest) := by
  unfold scanUnicode
  split
  · next heq =>
    simp only [List.cons.injEq] at heq
    obtain ⟨rfl, rfl, rfl, rfl, rfl⟩ := heq
    rw [h]
    split
    · next h' => cases h'
    · next h' =>
      cases h'
      split
      · rfl
      · exact if_neg fun hpair => hn ⟨hpair.1, hpair.2.1⟩
    · next heq _ =>
      cases heq
      rfl
  · next hno => exact absurd rfl (hno _ _ _ _ _)

theorem scanCode_ok {c : Code} (h : SpellsCode t c) : scanCode (t ++ rest) = some (c, rest) := by
  cases h with
  | @plain c hq hs hc =>
    have hlow : ¬ c.toNat < 0x20 := by omega
    simp [scanCode, hs, hlow]
  | @short e c he =>
    have hu : e ≠ 'u' := by
      rintro rfl
      exact nomatch he.symm.trans (show shortEscapes.lookup 'u' = none by decide)
    rw [List.cons_append, List.singleton_append, scanCode, he]
    · rfl
    · simpa using hu
  | unicode hn hlt => exact scanUnicode_ok hn (by omega)

theorem scanString_ok {s : Str} (h : SpellsString t s) (hn : t.length ≤ n) :
    scanString n (t ++ .scalar '"' :: rest) = (.ok (s, rest) : Except (ReadError ε) _) := by
  induction h generalizing n with
  | nil => simp [scanString]
  | @cons t u s c hc _ ih =>
    have hpos := hc.length_pos
    rw [List.length_append] at hn
    obtain ⟨n, rfl⟩ : ∃ m, n = m + 1 := ⟨n - 1, by omega⟩
    rw [List.append_assoc, scanString, scanCode_ok hc]
    · simp only [ih (show u.length ≤ n by omega)]
      rfl
    · exact hc.not_quote

/-! ## Numbers -/

/-- What follows a number and does not continue it. -/
def Ends (rest : Str) : Prop :=
  ∀ c ∈ rest.head?, isDigit c = false ∧ c ≠ .scalar '.' ∧ c ≠ .scalar 'e' ∧ c ≠ .scalar 'E'

theorem ends_nil : Ends [] := nofun

theorem ends_cons {c : Char} (h : isDigit (.scalar c) = false ∧ c ≠ '.' ∧ c ≠ 'e' ∧ c ≠ 'E') :
    Ends (.scalar c :: rest) := by
  rintro _ ⟨⟩
  simpa using h

theorem natText_cases (n : Nat) :
    n = 0 ∧ natText n = ['0'] ∨ ∃ c cs, natText n = c :: cs ∧ c.isDigit = true ∧ c ≠ '0' := by
  induction n using Nat.base_induction 10 (by decide) with
  | single m hm =>
    rcases Nat.eq_zero_or_pos m with rfl | hpos
    · exact .inl ⟨rfl, rfl⟩
    · exact .inr ⟨m.digitChar, [], Nat.toDigits_of_lt_base hm, by simp [hm], by simp; omega⟩
  | digit m k hk hm ih =>
    obtain ⟨rfl, -⟩ | ⟨c, cs, hcs, hc⟩ := ih
    · exact absurd hm (by decide)
    · refine .inr ⟨c, cs ++ natText k, ?_, hc⟩
      rw [natText, ← Nat.toDigits_append_toDigits (by decide) hm hk]
      exact congrArg (· ++ natText k) hcs

theorem isDigit_natText {c : Code} (h : c ∈ ofChars (natText n)) : isDigit c = true := by
  obtain ⟨d, hd, rfl⟩ := List.mem_map.mp h
  exact Nat.isDigit_of_mem_toDigits (by decide) (by decide) hd

theorem takeWhile_natText (h : Ends rest) :
    (ofChars (natText n) ++ rest).takeWhile isDigit = ofChars (natText n) := by
  rw [List.takeWhile_append_of_pos fun c hc => isDigit_natText hc]
  cases rest with
  | nil => simp
  | cons c rest => simp [(h c rfl).1]

theorem dropWhile_natText (h : Ends rest) :
    (ofChars (natText n) ++ rest).dropWhile isDigit = rest := by
  rw [List.dropWhile_append_of_pos fun c hc => isDigit_natText hc]
  cases rest with
  | nil => rfl
  | cons c rest => simp [(h c rfl).1]

theorem scanDigits_natText (h : Ends rest) :
    scanDigits (ofChars (natText n) ++ rest) = some (ofChars (natText n), rest) := by
  have htake : (ofChars (natText n) ++ rest).takeWhile isDigit = _ := takeWhile_natText h
  have hdrop : (ofChars (natText n) ++ rest).dropWhile isDigit = _ := dropWhile_natText h
  obtain ⟨-, hzero⟩ | ⟨c, cs, hcs, -, hc⟩ := natText_cases n
  · rw [hzero]
    rfl
  · rw [hcs] at htake hdrop ⊢
    rw [ofChars_cons, List.cons_append] at htake hdrop ⊢
    simp [scanDigits, hc, htake, hdrop]

theorem scanFraction_ends (h : Ends rest) : scanFraction rest = ([], rest) := by
  unfold scanFraction
  split
  · exact absurd rfl (h _ rfl).2.1
  · rfl

theorem scanExponent_ends (h : Ends rest) : scanExponent rest = ([], rest) := by
  unfold scanExponent
  split
  · next e rest =>
    obtain ⟨-, -, he, hE⟩ := h _ rfl
    rw [if_neg]
    rintro (rfl | rfl)
    · exact he rfl
    · exact hE rfl
  · rfl

theorem natOfDigits_natText : natOfDigits (ofChars (natText n)) = n := by
  have h : (ofChars (natText n)).filterMap Code.char? = natText n := by
    rw [ofChars, List.filterMap_map]
    exact List.filterMap_some
  rw [natOfDigits, h]
  exact Nat.ofDigitChars_ten_toDigits

theorem readDigits_natText (negative : Bool) (h : Ends rest) :
    readDigits b negative (ofChars (natText n) ++ rest) =
      .ok (b.int (if negative then -n else n), rest) := by
  rw [readDigits, scanDigits_natText h]
  simp only [scanFraction_ends h, scanExponent_ends h, and_self, if_true, natOfDigits_natText]

theorem ne_of_isDigit {c d : Char} (hc : c.isDigit = true) (hd : d.isDigit = false) : c ≠ d := by
  rintro rfl
  exact nomatch hc.symm.trans hd

/-- A text that starts with a digit, or with a minus and a digit, is none of the names. -/
theorem readScalar_of_digit {c : Char} (hc : c.isDigit = true) :
    readScalar b (.scalar c :: u) = readDigits b false (.scalar c :: u) ∧
      readScalar b (.scalar '-' :: .scalar c :: u) = readDigits b true (.scalar c :: u) := by
  have hn := ne_of_isDigit hc (show 'n'.isDigit = false by decide)
  have ht := ne_of_isDigit hc (show 't'.isDigit = false by decide)
  have hf := ne_of_isDigit hc (show 'f'.isDigit = false by decide)
  have hN := ne_of_isDigit hc (show 'N'.isDigit = false by decide)
  have hI := ne_of_isDigit hc (show 'I'.isDigit = false by decide)
  have hm := ne_of_isDigit hc (show '-'.isDigit = false by decide)
  constructor
  · simp [readScalar, literals, hn.symm, ht.symm, hf.symm, hN.symm, hI.symm, hm.symm, hm]
  · simp [readScalar, literals, hI.symm]

theorem natText_cons (n : Nat) : ∃ c cs, natText n = c :: cs ∧ c.isDigit = true := by
  obtain ⟨-, hzero⟩ | ⟨c, cs, hcs, hc, -⟩ := natText_cases n
  · exact ⟨'0', [], hzero, rfl⟩
  · exact ⟨c, cs, hcs, hc⟩

theorem readScalar_intText (i : Int) (h : Ends rest) :
    readScalar b (ofChars (intText i) ++ rest) = .ok (b.int i, rest) := by
  obtain ⟨c, cs, hcs, hc⟩ := natText_cons i.natAbs
  have hread := fun negative => readDigits_natText (b := b) (n := i.natAbs) negative h
  rw [intText]
  split
  · next hi =>
    have hneg : -(i.natAbs : Int) = i := by omega
    specialize hread true
    rw [hcs] at hread ⊢
    rw [ofChars_cons, ofChars_cons, List.cons_append, List.cons_append,
      (readScalar_of_digit hc).2]
    rw [ofChars_cons, List.cons_append] at hread
    rw [hread, if_pos rfl, hneg]
  · next hi =>
    have hpos : (i.natAbs : Int) = i := by omega
    specialize hread false
    rw [hcs] at hread ⊢
    rw [ofChars_cons, List.cons_append, (readScalar_of_digit hc).1]
    rw [ofChars_cons, List.cons_append] at hread
    rw [hread, if_neg Bool.false_ne_true, hpos]

/-! ## Values -/

theorem intText_cons (i : Int) : ∃ c cs, intText i = c :: cs ∧ (c = '-' ∨ c.isDigit = true) := by
  obtain ⟨c, cs, hcs, hc⟩ := natText_cons i.natAbs
  rw [intText]
  split
  · exact ⟨'-', _, rfl, .inl rfl⟩
  · exact ⟨c, cs, hcs, .inr hc⟩

/-- A spelled text starts with no blank, no closing bracket and no byte order mark. -/
theorem Spells.head {v : α} (h : Spells b t v) :
    ∃ c u, t = .scalar c :: u ∧ isBlank (.scalar c) = false ∧ c ≠ ']' ∧ c ≠ '\ufeff' := by
  cases h with
  | null => exact ⟨'n', _, rfl, rfl, by decide⟩
  | isTrue => exact ⟨'t', _, rfl, rfl, by decide⟩
  | isFalse => exact ⟨'f', _, rfl, rfl, by decide⟩
  | int i =>
    obtain ⟨c, cs, hcs, hc⟩ := intText_cons i
    refine ⟨c, _, by rw [hcs, ofChars_cons], ?_⟩
    rcases hc with rfl | hc
    · decide
    · have h₁ := ne_of_isDigit hc (show ' '.isDigit = false by decide)
      have h₂ := ne_of_isDigit hc (show '\t'.isDigit = false by decide)
      have h₃ := ne_of_isDigit hc (show '\n'.isDigit = false by decide)
      have h₄ := ne_of_isDigit hc (show '\r'.isDigit = false by decide)
      exact ⟨by simp [isBlank, h₁, h₂, h₃, h₄], ne_of_isDigit hc (by decide),
        ne_of_isDigit hc (by decide)⟩
  | str => exact ⟨'"', _, rfl, rfl, by decide⟩
  | empty => exact ⟨'[', _, rfl, rfl, by decide⟩
  | list => exact ⟨'[', _, rfl, rfl, by decide⟩
  | bare => exact ⟨'\x7b', _, rfl, rfl, by decide⟩
  | object => exact ⟨'\x7b', _, rfl, rfl, by decide⟩

theorem SpellsItems.head {vs : List α} (h : SpellsItems b t vs) :
    ∃ c u, t = .scalar c :: u ∧ isBlank (.scalar c) = false ∧ c ≠ ']' := by
  cases h with
  | single h =>
    obtain ⟨c, u, rfl, hc, hne, -⟩ := h.head
    exact ⟨c, _, rfl, hc, hne⟩
  | cons h =>
    obtain ⟨c, u, rfl, hc, hne, -⟩ := h.head
    exact ⟨c, _, rfl, hc, hne⟩

theorem SpellsMembers.head {ps : List (Str × α)} (h : SpellsMembers b t ps) :
    ∃ u, t = .scalar '"' :: u := by
  cases h <;> exact ⟨_, rfl⟩

theorem skipBlanks_cons {c : Char} (h : isBlank (.scalar c) = false) :
    skipBlanks (.scalar c :: u) = .scalar c :: u := by
  simp [skipBlanks, h]

theorem Spells.skipBlanks {v : α} (h : Spells b t v) : skipBlanks (t ++ rest) = t ++ rest := by
  obtain ⟨c, u, rfl, hc, -⟩ := h.head
  exact skipBlanks_cons hc

theorem SpellsItems.skipBlanks {vs : List α} (h : SpellsItems b t vs) :
    Json.skipBlanks (t ++ rest) = t ++ rest := by
  obtain ⟨c, u, rfl, hc, -⟩ := h.head
  exact skipBlanks_cons hc

theorem SpellsMembers.skipBlanks {ps : List (Str × α)} (h : SpellsMembers b t ps) :
    Json.skipBlanks (t ++ rest) = t ++ rest := by
  obtain ⟨u, rfl⟩ := h.head
  rfl

theorem readValue_scalar {c : Char} (hc : c ≠ '"' ∧ c ≠ '[' ∧ c ≠ '\x7b') :
    readValue b (n + 1) (.scalar c :: u) = readScalar b (.scalar c :: u) := by
  rw [readValue]
  · simp [hc.1]
  · simp [hc.2.1]
  · simp [hc.2.2]

theorem readValue_list (h : SpellsItems b t vs) :
    readValue b (n + 1) (.scalar '[' :: (t ++ rest)) =
      (readItems b n (t ++ rest)).map fun (vs, rest) => (b.list vs, rest) := by
  obtain ⟨c, u, rfl, hc, hne⟩ := h.head
  rw [readValue, List.cons_append, skipBlanks_cons hc]
  simp [hne]

mutual

/-- The reader takes a text to what it spells. -/
theorem readValue_spells : ∀ {t rest : Str} {v : α} {n : Nat}, Spells b t v → t.length ≤ n →
    Ends rest → readValue b n (t ++ rest) = .ok (v, rest)
  | t, rest, v, 0, h, hn, _ => by
    obtain ⟨c, u, rfl, -⟩ := h.head
    cases hn
  | _, _, _, n + 1, .null, _, _ => rfl
  | _, _, _, n + 1, .isTrue, _, _ => rfl
  | _, _, _, n + 1, .isFalse, _, _ => rfl
  | _, rest, _, n + 1, .int i, _, hends => by
    have hread := readScalar_intText (b := b) i hends
    obtain ⟨c, cs, hcs, hc⟩ := intText_cons i
    rw [hcs, ofChars_cons, List.cons_append] at hread ⊢
    rw [readValue_scalar, hread]
    rcases hc with rfl | hc
    · decide
    · exact ⟨ne_of_isDigit hc (by decide), ne_of_isDigit hc (by decide),
        ne_of_isDigit hc (by decide)⟩
  | _, rest, _, n + 1, .str h, hn, _ => by
    rw [List.length_cons, List.length_append, List.length_singleton] at hn
    rw [List.cons_append, List.append_assoc, List.singleton_append, readValue,
      scanString_ok h (by omega)]
    rfl
  | _, _, _, n + 1, .empty, _, _ => rfl
  | _, rest, _, n + 1, .list h, hn, _ => by
    rw [List.length_cons, List.length_append, List.length_singleton] at hn
    rw [List.cons_append, List.append_assoc, List.singleton_append, readValue_list h,
      readItems_spells h (by omega)]
    rfl
  | _, rest, v, n + 1, .bare h, _, _ => by
    change (raises (b.object []) >>= fun v => .ok (v, rest)) = _
    rw [h]
    rfl
  | _, rest, v, n + 1, .object h hv, hn, _ => by
    rw [List.length_cons, List.length_append, List.length_singleton] at hn
    have hread : readMembers b n _ = .ok (_, rest) := readMembers_spells h (by omega)
    obtain ⟨u, rfl⟩ := h.head
    rw [List.cons_append] at hread
    rw [List.cons_append, List.append_assoc, List.singleton_append]
    change (readMembers b n (.scalar '"' :: (u ++ .scalar '\x7d' :: rest)) >>= fun p =>
      raises (b.object p.1) >>= fun v => .ok (v, p.2)) = _
    rw [hread]
    change (raises (b.object _) >>= fun v => .ok (v, rest)) = _
    rw [hv]
    rfl

theorem readItems_spells : ∀ {t rest : Str} {vs : List α} {n : Nat}, SpellsItems b t vs →
    t.length < n → readItems b n (t ++ .scalar ']' :: rest) = .ok (vs, rest)
  | t, rest, vs, 0, h, hn => nomatch hn
  | t, rest, _, n + 1, .single h, hn => by
    rw [readItems, readValue_spells h (Nat.le_of_lt_succ hn) (ends_cons (by decide))]
    rfl
  | _, rest, _, n + 1, .cons (t := t) (u := u) h hs, hn => by
    rw [List.length_append, List.length_cons] at hn
    rw [List.append_assoc, List.cons_append, readItems,
      readValue_spells h (by omega) (ends_cons (by decide))]
    change (readItems b n (skipBlanks (u ++ .scalar ']' :: rest)) >>= _) = _
    rw [hs.skipBlanks, readItems_spells hs (by omega)]
    rfl

theorem readMembers_spells : ∀ {t rest : Str} {ps : List (Str × α)} {n : Nat},
    SpellsMembers b t ps → t.length < n →
    readMembers b n (t ++ .scalar '\x7d' :: rest) = .ok (ps, rest)
  | t, rest, ps, 0, h, hn => nomatch hn
  | _, rest, _, n + 1, .single (t := t) (u := u) hk h, hn => by
    simp only [List.length_cons, List.length_append] at hn
    rw [List.cons_append, List.append_assoc, List.cons_append, List.cons_append, readMembers,
      scanString_ok hk (by omega)]
    change (readValue b n (skipBlanks (u ++ .scalar '\x7d' :: rest)) >>= _) = _
    rw [h.skipBlanks, readValue_spells h (by omega) (ends_cons (by decide))]
    rfl
  | _, rest, _, n + 1, .cons (t := t) (u := u) (w := w) hk h hs, hn => by
    simp only [List.length_cons, List.length_append] at hn
    rw [List.cons_append, List.append_assoc, List.cons_append, List.cons_append,
      List.append_assoc, List.cons_append, readMembers, scanString_ok hk (by omega)]
    change (readValue b n (skipBlanks (u ++ .scalar ',' :: (w ++ .scalar '\x7d' :: rest))) >>= _) = _
    rw [h.skipBlanks, readValue_spells h (by omega) (ends_cons (by decide))]
    change (readMembers b n (skipBlanks (w ++ .scalar '\x7d' :: rest)) >>= _) = _
    rw [hs.skipBlanks, readMembers_spells hs (by omega)]
    rfl

end

/-- A whole text is read to what it spells. -/
theorem loads_spells {v : α} (h : Spells b t v) : loads b t = .ok v := by
  obtain ⟨c, u, rfl, hblank, -, hmark⟩ := h.head
  have hread : readValue b (u.length + 1) (.scalar c :: u ++ []) = .ok (v, []) :=
    readValue_spells h (Nat.le_refl _) ends_nil
  rw [List.append_nil] at hread
  rw [loads, List.length_cons, skipBlanks_cons hblank, hread, if_neg]
  · rfl
  · simpa using hmark

end Dsl41.Infra.Json
