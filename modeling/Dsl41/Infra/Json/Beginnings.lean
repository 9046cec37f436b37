import Dsl41.Infra.Json.Grammar
import Mathlib.Data.List.Infix

/-!
# Beginnings of a text

A text that stops short. The reader refuses every proper beginning of an object's text, so a text
that was cut is told from a whole one.
-/

namespace Dsl41.Infra.Json

variable {ε α : Type} {b : Builder ε α} {s t u rest : Str} {n : Nat}

/-! ## Refusals -/

/-- The reader refuses a text. -/
def Refused {ε β : Type} (x : Except ε β) : Prop := ∀ v, x ≠ .ok v

section Refusals

variable {ε β γ : Type} {x : Except ε β}

theorem refused_error {e : ε} : Refused (.error e : Except ε β) := nofun

theorem Refused.bind {f : β → Except ε γ} (h : Refused x) : Refused (x >>= f) := by
  intro v hv
  cases x with
  | error e => cases hv
  | ok a => exact h a rfl

theorem Refused.map {f : β → γ} (h : Refused x) : Refused (x.map f) := by
  intro v hv
  cases x with
  | error e => cases hv
  | ok a => exact h a rfl

end Refusals

/-- A beginning of two texts on end stops in the first or goes on into the second. -/
theorem prefix_append_cases (h : s <+: t ++ u) : (s <+: t ∧ s ≠ t) ∨ ∃ s', s = t ++ s' ∧ s' <+: u := by
  obtain ⟨more, hmore⟩ := h
  obtain ⟨a, ha, -⟩ | ⟨c, hc, hu⟩ := List.append_eq_append_iff.mp hmore
  · by_cases hs : s = t
    · exact .inr ⟨[], by rw [hs, List.append_nil], List.nil_prefix⟩
    · exact .inl ⟨⟨a, ha.symm⟩, hs⟩
  · exact .inr ⟨c, hc, more, hu.symm⟩

/-- A beginning of an item, then one character, is empty, starts as it does, or is all of it. -/
theorem prefix_cons_cases {c : Code} (h : s <+: c :: t) : s = [] ∨ ∃ s', s = c :: s' ∧ s' <+: t := by
  cases s with
  | nil => exact .inl rfl
  | cons d s =>
    obtain ⟨rfl, htail⟩ := List.cons_prefix_cons.mp h
    exact .inr ⟨s, rfl, htail⟩

/-! ## Strings -/

theorem SpellsCode.prefix_refused {c : Code} (h : SpellsCode t c) (hs : s <+: t) (hne : s ≠ t) :
    scanCode s = none ∧ ∀ rest, s ≠ .scalar '"' :: rest := by
  cases h with
  | plain hq hb hc =>
    rcases prefix_cons_cases hs with rfl | ⟨s₁, rfl, hs₁⟩
    · exact ⟨rfl, nofun⟩
    · obtain rfl := List.prefix_nil.mp hs₁
      exact absurd rfl hne
  | short he =>
    rcases prefix_cons_cases hs with rfl | ⟨s₁, rfl, hs₁⟩
    · exact ⟨rfl, nofun⟩
    · rcases prefix_cons_cases hs₁ with rfl | ⟨s₂, rfl, hs₂⟩
      · exact ⟨rfl, nofun⟩
      · obtain rfl := List.prefix_nil.mp hs₂
        exact absurd rfl hne
  | unicode hn hlt =>
    rcases prefix_cons_cases hs with rfl | ⟨s₁, rfl, hs₁⟩
    · exact ⟨rfl, nofun⟩
    · rcases prefix_cons_cases hs₁ with rfl | ⟨s₂, rfl, hs₂⟩
      · exact ⟨rfl, nofun⟩
      · refine ⟨?_, nofun⟩
        rcases s₂ with _ | ⟨x, _ | ⟨y, _ | ⟨z, _ | ⟨w, s₂⟩⟩⟩⟩
        · rfl
        · rfl
        · rfl
        · rfl
        · simp only [List.cons_prefix_cons] at hs₂
          obtain ⟨rfl, rfl, rfl, rfl, hs₂⟩ := hs₂
          obtain rfl := List.prefix_nil.mp hs₂
          exact absurd rfl hne

/-- A string without its closing quote. -/
theorem SpellsString.prefix_refused {w : Str} (h : SpellsString t w) (hs : s <+: t) :
    Refused (scanString n s : Except (ReadError ε) _) := by
  induction h generalizing n s with
  | nil =>
    obtain rfl := List.prefix_nil.mp hs
    cases n with
    | zero => exact refused_error
    | succ n => exact refused_error
  | @cons t u w c hc _ ih =>
    rcases prefix_append_cases hs with ⟨hshort, hne⟩ | ⟨s', rfl, hlong⟩
    · obtain ⟨hscan, hquote⟩ := hc.prefix_refused hshort hne
      cases n with
      | zero =>
        rw [scanString]
        · exact refused_error
        · exact hquote
      | succ n =>
        rw [scanString, hscan]
        · exact refused_error
        · exact hquote
    · cases n with
      | zero =>
        rw [scanString]
        · exact refused_error
        · exact hc.not_quote
      | succ n =>
        rw [scanString, scanCode_ok hc]
        · exact (ih hlong).map
        · exact hc.not_quote

/-! ## Numbers -/

/-- A beginning of a number's digits is empty or the digits of another. -/
theorem natText_begins {cs : List Char} (h : cs <+: natText n) : cs = [] ∨ ∃ m, cs = natText m := by
  induction n using Nat.base_induction 10 (by decide) with
  | single m hm =>
    rw [natText, Nat.toDigits_of_lt_base hm] at h
    rcases cs with _ | ⟨c, cs⟩
    · exact .inl rfl
    · obtain ⟨rfl, hrest⟩ := List.cons_prefix_cons.mp h
      obtain rfl := List.prefix_nil.mp hrest
      exact .inr ⟨m, (Nat.toDigits_of_lt_base hm).symm⟩
  | digit m k hk hm ih =>
    have hsplit : natText (10 * m + k) = natText m ++ [k.digitChar] := by
      rw [natText, ← Nat.toDigits_append_toDigits (by decide) hm hk, Nat.toDigits_of_lt_base hk]
      rfl
    rw [hsplit] at h
    rcases List.prefix_concat_iff.mp h with rfl | h
    · exact .inr ⟨_, hsplit.symm⟩
    · exact ih h

theorem ofChars_begins {cs : List Char} (h : s <+: ofChars cs) : ∃ cs', s = ofChars cs' ∧ cs' <+: cs := by
  obtain ⟨more, hmore⟩ := h
  obtain ⟨a, b, hcs, rfl, -⟩ := List.map_eq_append_iff.mp hmore.symm
  exact ⟨a, rfl, b, hcs.symm⟩

/-- A beginning of an integer is no value or an integer that nothing follows. -/
theorem readScalar_intText_begins {i : Int} (hs : s <+: ofChars (intText i)) :
    Refused (readScalar b s) ∨ ∃ v, readScalar b s = .ok (v, []) := by
  obtain ⟨cs, rfl, hcs⟩ := ofChars_begins hs
  have hread : ∀ j : Int, ∃ v, readScalar b (ofChars (intText j)) = .ok (v, []) := fun j =>
    ⟨b.int j, by simpa using readScalar_intText (b := b) j ends_nil⟩
  rw [intText] at hcs
  split at hcs
  · next hneg =>
    rcases cs with _ | ⟨c, cs⟩
    · exact .inl refused_error
    · obtain ⟨rfl, hdigits⟩ := List.cons_prefix_cons.mp hcs
      rcases natText_begins hdigits with rfl | ⟨m, rfl⟩
      · exact .inl refused_error
      · by_cases hm : m = 0
        · subst hm
          exact .inr ⟨_, rfl⟩
        · have htext : '-' :: natText m = intText (-m) := by
            rw [intText, if_pos (by omega), Int.natAbs_neg, Int.natAbs_natCast]
          rw [htext]
          exact .inr (hread _)
  · next hpos =>
    rcases natText_begins hcs with rfl | ⟨m, rfl⟩
    · exact .inl refused_error
    · have htext : natText m = intText m := by
        rw [intText, if_neg (by omega), Int.natAbs_natCast]
      rw [htext]
      exact .inr (hread _)

/-! ## More fuel -/

/-- What the first gives, the second gives too. -/
def Keeps {ε β : Type} (x y : Except ε β) : Prop := ∀ a, x = .ok a → y = .ok a

section Keeps

variable {ε β γ : Type} {x y : Except ε β}

theorem Keeps.refl : Keeps x x := fun _ h => h

theorem keeps_error {e : ε} : Keeps (.error e) y := nofun

theorem Keeps.bind {f g : β → Except ε γ} (h : Keeps x y) (hf : ∀ a, Keeps (f a) (g a)) :
    Keeps (x >>= f) (y >>= g) := by
  intro c hc
  cases x with
  | error e => cases hc
  | ok a =>
    rw [h a rfl]
    exact hf a c hc

theorem Keeps.map {f : β → γ} (h : Keeps x y) : Keeps (x.map f) (y.map f) := by
  intro c hc
  cases x with
  | error e => cases hc
  | ok a =>
    rw [h a rfl]
    exact hc

theorem Keeps.refused (h : Keeps x y) (hy : Refused y) : Refused x := fun a ha => hy a (h a ha)

end Keeps

theorem scanString_succ : Keeps (scanString n s : Except (ReadError ε) _) (scanString (n + 1) s) := by
  induction n generalizing s with
  | zero =>
    unfold scanString
    split
    · exact .refl
    · exact keeps_error
    · next hn _ => exact nomatch hn
  | succ n ih =>
    unfold scanString
    split
    · exact .refl
    · next hn _ => exact nomatch hn
    · next hn _ =>
      obtain rfl := Nat.succ.inj hn
      split
      · exact keeps_error
      · exact ih.map

theorem read_succ (n : Nat) : (∀ s, Keeps (readValue b n s) (readValue b (n + 1) s)) ∧
    (∀ s, Keeps (readItems b n s) (readItems b (n + 1) s)) ∧
    ∀ s, Keeps (readMembers b n s) (readMembers b (n + 1) s) := by
  induction n with
  | zero =>
    refine ⟨fun s => ?_, fun s => ?_, fun s => ?_⟩
    · rw [readValue]
      exact keeps_error
    · rw [readItems]
      exact keeps_error
    · rw [readMembers]
      exact keeps_error
  | succ n ih =>
    obtain ⟨hvalue, hitems, hmembers⟩ := ih
    refine ⟨fun s => ?_, fun s => ?_, fun s => ?_⟩
    · unfold readValue
      split
      · exact scanString_succ.map
      · split
        · exact .refl
        · exact (hitems _).map
      · dsimp only
        split
        · exact .refl
        · exact .bind (hmembers _) fun _ => .refl
      · exact .refl
    · rw [readItems, readItems]
      refine .bind (hvalue _) fun r => ?_
      obtain ⟨v, rest⟩ := r
      dsimp only
      split
      · exact .refl
      · exact .bind (hitems _) fun _ => .refl
      · exact .refl
    · unfold readMembers
      split
      · refine .bind scanString_succ fun r => ?_
        obtain ⟨key, rest⟩ := r
        dsimp only
        split
        · refine .bind (hvalue _) fun r => ?_
          obtain ⟨v, rest⟩ := r
          dsimp only
          split
          · exact .refl
          · exact .bind (hmembers _) fun _ => .refl
          · exact .refl
        · exact .refl
      · exact .refl

theorem readValue_fuel {m : Nat} (h : n ≤ m) : Keeps (readValue b n s) (readValue b m s) := by
  induction h with
  | refl => exact .refl
  | step _ ih => exact fun a ha => (read_succ _).1 s a (ih a ha)

/-! ## Values -/

/-- The reader refuses a text or reads all of it. -/
def Stops (x : Except (ReadError ε) (α × Str)) : Prop := Refused x ∨ ∃ v, x = .ok (v, [])

theorem Stops.bind {β : Type} {x : Except (ReadError ε) (α × Str)} {f : α × Str → Except (ReadError ε) β}
    (h : Stops x) (hf : ∀ v, Refused (f (v, []))) : Refused (x >>= f) := by
  rcases h with h | ⟨v, rfl⟩
  · exact h.bind
  · exact hf v

theorem skipBlanks_begins {c : Char} (hc : isBlank (.scalar c) = false) (h : s <+: .scalar c :: t) :
    skipBlanks s = s := by
  rcases prefix_cons_cases h with rfl | ⟨s', rfl, -⟩
  · rfl
  · exact skipBlanks_cons hc

theorem readMembers_nil : Refused (readMembers b n []) := by
  cases n with
  | zero => exact refused_error
  | succ n => exact refused_error

theorem readItems_nil : Refused (readItems b n []) := by
  cases n with
  | zero => exact refused_error
  | succ n =>
    rw [readItems]
    refine Refused.bind ?_
    cases n with
    | zero => exact refused_error
    | succ n => exact refused_error

/-- A beginning of a literal name is the name or no value. -/
theorem readValue_literal {cs : List Char} (hcs : cs = "null".toList ∨ cs = "true".toList ∨ cs = "false".toList)
    (hs : s <+: ofChars cs) : Stops (readValue b n s) := by
  obtain ⟨cs', rfl, hcs'⟩ := ofChars_begins hs
  have hinits : cs' ∈ cs.inits := (List.mem_inits _ _).mpr hcs'
  cases n with
  | zero => exact .inl refused_error
  | succ n =>
    rcases hcs with rfl | rfl | rfl
    · change cs' ∈ [[], ['n'], ['n', 'u'], ['n', 'u', 'l'], ['n', 'u', 'l', 'l']] at hinits
      simp only [List.mem_cons, List.not_mem_nil, or_false] at hinits
      rcases hinits with rfl | rfl | rfl | rfl | rfl
      · exact .inl refused_error
      · exact .inl refused_error
      · exact .inl refused_error
      · exact .inl refused_error
      · exact .inr ⟨_, rfl⟩
    · change cs' ∈ [[], ['t'], ['t', 'r'], ['t', 'r', 'u'], ['t', 'r', 'u', 'e']] at hinits
      simp only [List.mem_cons, List.not_mem_nil, or_false] at hinits
      rcases hinits with rfl | rfl | rfl | rfl | rfl
      · exact .inl refused_error
      · exact .inl refused_error
      · exact .inl refused_error
      · exact .inl refused_error
      · exact .inr ⟨_, rfl⟩
    · change cs' ∈ [[], ['f'], ['f', 'a'], ['f', 'a', 'l'], ['f', 'a', 'l', 's'], ['f', 'a', 'l', 's', 'e']] at hinits
      simp only [List.mem_cons, List.not_mem_nil, or_false] at hinits
      rcases hinits with rfl | rfl | rfl | rfl | rfl | rfl
      · exact .inl refused_error
      · exact .inl refused_error
      · exact .inl refused_error
      · exact .inl refused_error
      · exact .inl refused_error
      · exact .inr ⟨_, rfl⟩

theorem readValue_intText_begins {i : Int} (hs : s <+: ofChars (intText i)) : Stops (readValue b n s) := by
  cases n with
  | zero => exact .inl refused_error
  | succ n =>
    have hread := readScalar_intText_begins (b := b) hs
    obtain ⟨c, cs, hcs, hc⟩ := intText_cons i
    rw [hcs, ofChars_cons] at hs
    rcases prefix_cons_cases hs with rfl | ⟨s', rfl, -⟩
    · exact .inl refused_error
    · rw [readValue_scalar]
      · exact hread
      · rcases hc with rfl | hc
        · decide
        · exact ⟨ne_of_isDigit hc (by decide), ne_of_isDigit hc (by decide), ne_of_isDigit hc (by decide)⟩

/-- A beginning of a member stops before its value or goes on into it. -/
theorem readMembers_key {key : Str} (hk : SpellsString t key)
    (hs : s <+: .scalar '"' :: (t ++ .scalar '"' :: .scalar ':' :: u)) (hn : s.length ≤ n) :
    Refused (readMembers b (n + 1) s) ∨
      ∃ s', s = .scalar '"' :: (t ++ .scalar '"' :: .scalar ':' :: s') ∧ s' <+: u := by
  rcases prefix_cons_cases hs with rfl | ⟨s₁, rfl, hs₁⟩
  · exact .inl readMembers_nil
  · rw [readMembers]
    rcases prefix_append_cases hs₁ with ⟨hs₁, -⟩ | ⟨s₂, rfl, hs₂⟩
    · exact .inl (hk.prefix_refused hs₁).bind
    · rcases prefix_cons_cases hs₂ with rfl | ⟨s₃, rfl, hs₃⟩
      · rw [List.append_nil]
        exact .inl (hk.prefix_refused List.prefix_rfl).bind
      · rcases prefix_cons_cases hs₃ with rfl | ⟨s₄, rfl, hs₄⟩
        · simp only [List.length_cons, List.length_append] at hn
          rw [scanString_ok hk (by omega)]
          exact .inl refused_error
        · exact .inr ⟨s₄, rfl, hs₄⟩

/-- Two turns of fuel a code point are enough for a text that was cut inside its brackets. -/
abbrev Enough (s : Str) (n : Nat) : Prop := 2 * s.length < n

mutual

theorem readValue_begins : ∀ {t s : Str} {v : α} {n : Nat}, Spells b t v → s <+: t → Enough s n →
    Stops (readValue b n s)
  | _, _, _, 0, _, _, hn => nomatch hn
  | _, _, _, n + 1, .null, hs, _ => readValue_literal (.inl rfl) hs
  | _, _, _, n + 1, .isTrue, hs, _ => readValue_literal (.inr (.inl rfl)) hs
  | _, _, _, n + 1, .isFalse, hs, _ => readValue_literal (.inr (.inr rfl)) hs
  | _, _, _, n + 1, .int i, hs, _ => readValue_intText_begins hs
  | _, s, _, n + 1, .str (t := t) h, hs, hn => by
    rcases prefix_cons_cases hs with rfl | ⟨s₁, rfl, hs₁⟩
    · exact .inl refused_error
    · rw [readValue]
      rcases List.prefix_concat_iff.mp hs₁ with rfl | hs₁
      · rw [scanString_ok h]
        · exact .inr ⟨_, rfl⟩
        · simp only [Enough, List.length_cons, List.length_append] at hn
          omega
      · exact .inl (h.prefix_refused hs₁).map
  | _, s, _, n + 1, .empty, hs, _ => by
    rcases prefix_cons_cases hs with rfl | ⟨s₁, rfl, hs₁⟩
    · exact .inl refused_error
    · rcases prefix_cons_cases hs₁ with rfl | ⟨s₂, rfl, hs₂⟩
      · exact .inl readItems_nil.map
      · obtain rfl := List.prefix_nil.mp hs₂
        exact .inr ⟨_, rfl⟩
  | _, s, _, n + 1, .list (t := t) h, hs, hn => by
    rcases prefix_cons_cases hs with rfl | ⟨s₁, rfl, hs₁⟩
    · exact .inl refused_error
    · rcases List.prefix_concat_iff.mp hs₁ with rfl | hs₁
      · have hspells : Spells b (.scalar '[' :: (t ++ [.scalar ']'])) _ := .list h
        have hread : readValue b (n + 1) (.scalar '[' :: (t ++ [.scalar ']']) ++ []) = .ok (_, []) :=
          readValue_spells hspells (by omega) ends_nil
        rw [List.append_nil] at hread
        exact .inr ⟨_, hread⟩
      · have hitems := readItems_begins (n := n) h hs₁ (by
          simp only [Enough, List.length_cons] at hn
          omega)
        obtain ⟨c, u, rfl, hblank, hne⟩ := h.head
        rw [readValue, skipBlanks_begins hblank hs₁]
        rcases prefix_cons_cases hs₁ with rfl | ⟨s₂, rfl, -⟩
        · exact .inl hitems.map
        · split
          · next heq => simp [hne] at heq
          · exact .inl hitems.map
  | _, s, _, n + 1, .bare hv, hs, _ => by
    rcases prefix_cons_cases hs with rfl | ⟨s₁, rfl, hs₁⟩
    · exact .inl refused_error
    · rcases prefix_cons_cases hs₁ with rfl | ⟨s₂, rfl, hs₂⟩
      · exact .inl readMembers_nil.bind
      · obtain rfl := List.prefix_nil.mp hs₂
        change Stops (raises (b.object []) >>= fun v => .ok (v, []))
        rw [hv]
        exact .inr ⟨_, rfl⟩
  | _, s, _, n + 1, .object (t := t) h hv, hs, hn => by
    rcases prefix_cons_cases hs with rfl | ⟨s₁, rfl, hs₁⟩
    · exact .inl refused_error
    · rcases List.prefix_concat_iff.mp hs₁ with rfl | hs₁
      · have hspells : Spells b (.scalar '\x7b' :: (t ++ [.scalar '\x7d'])) _ := .object h hv
        have hread : readValue b (n + 1) (.scalar '\x7b' :: (t ++ [.scalar '\x7d']) ++ []) =
            .ok (_, []) := readValue_spells hspells (by omega) ends_nil
        rw [List.append_nil] at hread
        exact .inr ⟨_, hread⟩
      · have hmembers := readMembers_begins (n := n) h hs₁ (by
          simp only [Enough, List.length_cons] at hn
          omega)
        obtain ⟨u, rfl⟩ := h.head
        rcases prefix_cons_cases hs₁ with rfl | ⟨s₂, rfl, -⟩
        · exact .inl hmembers.bind
        · exact .inl hmembers.bind

theorem readItems_begins : ∀ {t s : Str} {vs : List α} {n : Nat}, SpellsItems b t vs → s <+: t →
    2 * s.length + 1 < n → Refused (readItems b n s)
  | _, _, _, 0, _, _, hn => nomatch hn
  | _, _, _, n + 1, .single h, hs, hn => by
    rw [readItems]
    exact (readValue_begins h hs (by unfold Enough; omega)).bind fun v => refused_error
  | _, _, _, n + 1, .cons (t := t) (u := u) h hu, hs, hn => by
    rw [readItems]
    rcases prefix_append_cases hs with ⟨hs, -⟩ | ⟨s₁, rfl, hs₁⟩
    · exact (readValue_begins h hs (by unfold Enough; omega)).bind fun v => refused_error
    · rw [List.length_append] at hn
      rcases prefix_cons_cases hs₁ with rfl | ⟨s₂, rfl, hs₂⟩
      · rw [List.append_nil]
        exact (readValue_begins h List.prefix_rfl (by unfold Enough; omega)).bind fun v => refused_error
      · rw [List.length_cons] at hn
        rw [readValue_spells h (by omega) (ends_cons (by decide))]
        change Refused (readItems b n (skipBlanks s₂) >>= _)
        refine Refused.bind ?_
        have hrest := readItems_begins (n := n) hu hs₂ (by omega)
        obtain ⟨c, w, rfl, hblank, -⟩ := hu.head
        rwa [skipBlanks_begins hblank hs₂]

theorem readMembers_begins : ∀ {t s : Str} {ps : List (Str × α)} {n : Nat}, SpellsMembers b t ps →
    s <+: t → 2 * s.length + 1 < n → Refused (readMembers b n s)
  | _, _, _, 0, _, _, hn => nomatch hn
  | _, s, _, n + 1, .single (t := t) (u := u) hk h, hs, hn => by
    rcases readMembers_key (n := n) hk hs (by omega) with hkey | ⟨s₁, rfl, hs₁⟩
    · exact hkey
    · simp only [List.length_cons, List.length_append] at hn
      rw [readMembers, scanString_ok hk (by omega)]
      change Refused (readValue b n (skipBlanks s₁) >>= _)
      obtain ⟨c, w, hw, hblank, -⟩ := h.head
      rw [skipBlanks_begins hblank (hw ▸ hs₁)]
      exact (readValue_begins h hs₁ (by unfold Enough; omega)).bind fun v => refused_error
  | _, s, _, n + 1, .cons (t := t) (u := u) (w := w) hk h hw, hs, hn => by
    rcases readMembers_key (n := n) hk hs (by omega) with hkey | ⟨s₁, rfl, hs₁⟩
    · exact hkey
    · simp only [List.length_cons, List.length_append] at hn
      rw [readMembers, scanString_ok hk (by omega)]
      change Refused (readValue b n (skipBlanks s₁) >>= _)
      rcases prefix_append_cases hs₁ with ⟨hs₁, -⟩ | ⟨s₂, rfl, hs₂⟩
      · obtain ⟨c, x, hx, hblank, -⟩ := h.head
        rw [skipBlanks_begins hblank (hx ▸ hs₁)]
        exact (readValue_begins h hs₁ (by unfold Enough; omega)).bind fun v => refused_error
      · rw [List.length_append] at hn
        rw [h.skipBlanks]
        rcases prefix_cons_cases hs₂ with rfl | ⟨s₃, rfl, hs₃⟩
        · rw [List.append_nil]
          exact (readValue_begins h List.prefix_rfl (by unfold Enough; omega)).bind fun v => refused_error
        · rw [List.length_cons] at hn
          rw [readValue_spells h (by omega) (ends_cons (by decide))]
          change Refused (readMembers b n (skipBlanks s₃) >>= _)
          refine Refused.bind ?_
          have hrest := readMembers_begins (n := n) hw hs₃ (by omega)
          obtain ⟨x, rfl⟩ := hw.head
          rwa [skipBlanks_begins (by decide) hs₃]

end

/-- What a text that starts with a brace spells is an object. -/
theorem Spells.object_cases {v : α} (h : Spells b (.scalar '\x7b' :: t) v) :
    t = [.scalar '\x7d'] ∨ ∃ t' ps, t = t' ++ [.scalar '\x7d'] ∧ SpellsMembers b t' ps := by
  generalize htext : Code.scalar '\x7b' :: t = text at h
  cases h with
  | null => cases htext
  | isTrue => cases htext
  | isFalse => cases htext
  | int i =>
    obtain ⟨c, cs, hcs, hc⟩ := intText_cons i
    rw [hcs] at htext
    obtain rfl : '\x7b' = c := Code.scalar.inj (List.cons.inj htext).1
    exact absurd hc (by decide)
  | str h => cases htext
  | empty => cases htext
  | list h => cases htext
  | bare hv => exact .inl (List.cons.inj htext).2
  | object h hv => exact .inr ⟨_, _, (List.cons.inj htext).2, h⟩

/-- A proper beginning of an object's text is no JSON. -/
theorem loads_begins {v : α} (h : Spells b (.scalar '\x7b' :: t) v) (hs : s <+: .scalar '\x7b' :: t)
    (hne : s ≠ .scalar '\x7b' :: t) : Refused (loads b s) := by
  have hobject : Refused (readValue b (2 * s.length + 1) s) ∨ s = [] := by
    rcases prefix_cons_cases hs with rfl | ⟨s', rfl, hs'⟩
    · exact .inr rfl
    · rcases h.object_cases with rfl | ⟨t', ps, rfl, hps⟩
      · rcases prefix_cons_cases hs' with rfl | ⟨s₂, rfl, hs₂⟩
        · exact .inl readMembers_nil.bind
        · obtain rfl := List.prefix_nil.mp hs₂
          exact absurd rfl hne
      · rcases List.prefix_concat_iff.mp hs' with rfl | hs'
        · exact absurd rfl hne
        · have hmembers := readMembers_begins (n := 2 * (s'.length + 1)) hps hs' (by omega)
          obtain ⟨u, rfl⟩ := hps.head
          rcases prefix_cons_cases hs' with rfl | ⟨s₂, rfl, -⟩
          · exact .inl hmembers.bind
          · exact .inl hmembers.bind
  rcases hobject with hrefused | rfl
  · have hblank : skipBlanks s = s := skipBlanks_begins (by decide) hs
    unfold loads
    split
    · exact refused_error
    · rw [hblank]
      exact ((readValue_fuel (by omega)).refused hrefused).bind
  · exact refused_error

/-! ## Whether a text is JSON -/

/-- The reader without hooks, for whether a text is JSON. -/
def syntaxOnly : Builder Empty Unit where
  null := ()
  bool _ := ()
  int _ := ()
  str _ := ()
  list _ := ()
  object _ := .ok ()
  float _ := .ok ()
  constant _ := .ok ()

mutual

/-- What a text spells does not matter for whether it is JSON. -/
theorem Spells.syntaxOnly : ∀ {t : Str} {v : α}, Spells b t v → Spells syntaxOnly t ()
  | _, _, .null => .null
  | _, _, .isTrue => .isTrue
  | _, _, .isFalse => .isFalse
  | _, _, .int i => .int i
  | _, _, .str h => .str h
  | _, _, .empty => .empty
  | _, _, .list h => by
    obtain ⟨us, hus⟩ := h.syntaxOnly
    exact .list hus
  | _, _, .bare _ => .bare rfl
  | _, _, .object h _ => by
    obtain ⟨us, hus⟩ := h.syntaxOnly
    exact .object hus rfl

theorem SpellsItems.syntaxOnly : ∀ {t : Str} {vs : List α}, SpellsItems b t vs →
    ∃ us, SpellsItems Json.syntaxOnly t us
  | _, _, .single h => ⟨_, .single h.syntaxOnly⟩
  | _, _, .cons h hs => by
    obtain ⟨us, hus⟩ := hs.syntaxOnly
    exact ⟨_, .cons h.syntaxOnly hus⟩

theorem SpellsMembers.syntaxOnly : ∀ {t : Str} {ps : List (Str × α)}, SpellsMembers b t ps →
    ∃ us, SpellsMembers Json.syntaxOnly t us
  | _, _, .single hk h => ⟨_, .single hk h.syntaxOnly⟩
  | _, _, .cons hk h hs => by
    obtain ⟨us, hus⟩ := hs.syntaxOnly
    exact ⟨_, .cons hk h.syntaxOnly hus⟩

end

/-! ## One line -/

/-- No control character. -/
abbrev Printable (t : Str) : Prop := ∀ c ∈ t, 0x20 ≤ c.ord

theorem Printable.append (ht : Printable t) (hu : Printable u) : Printable (t ++ u) := fun c hc =>
  (List.mem_append.mp hc).elim (ht c) (hu c)

theorem Printable.cons {c : Char} (hc : 0x20 ≤ c.toNat) (ht : Printable t) : Printable (.scalar c :: t) :=
  List.forall_mem_cons.mpr ⟨hc, ht⟩

theorem printable_nil : Printable [] := nofun

theorem hexValue_printable {c : Code} (h : (hexValue c).isSome) : 0x20 ≤ c.ord := by
  cases c with
  | surrogate n => cases h
  | scalar c =>
    show 0x20 ≤ c.toNat
    rw [hexValue] at h
    split at h
    · next hdigit =>
      exact (show 0x20 ≤ '0'.toNat by decide).trans (Char.isDigit_iff_toNat.mp hdigit).1
    · split at h
      · next hlow => exact (show 0x20 ≤ 'a'.toNat by decide).trans (Char.le_def.mp hlow.1)
      · split at h
        · next hup => exact (show 0x20 ≤ 'A'.toNat by decide).trans (Char.le_def.mp hup.1)
        · cases h

theorem SpellsCode.printable {c : Code} (h : SpellsCode t c) : Printable t := by
  cases h with
  | plain hq hb hc => exact .cons hc printable_nil
  | @short e c he =>
    refine .cons (by decide) (.cons ?_ printable_nil)
    have hmem : (e, c) ∈ shortEscapes := by
      obtain ⟨l, l', heq, -⟩ := List.lookup_eq_some_iff.mp he
      rw [heq]
      exact List.mem_append_right _ List.mem_cons_self
    have hall : ∀ p ∈ shortEscapes, 0x20 ≤ p.1.toNat := by decide
    exact hall (e, c) hmem
  | @unicode x y z w n hn hlt =>
    refine .cons (by decide) (.cons (by decide) ?_)
    have hdigits : (hexValue x).isSome ∧ (hexValue y).isSome ∧ (hexValue z).isSome ∧ (hexValue w).isSome := by
      rw [hexQuad] at hn
      cases hx : hexValue x with
      | none => simp [hx] at hn
      | some _ =>
        cases hy : hexValue y with
        | none => simp [hx, hy] at hn
        | some _ =>
          cases hz : hexValue z with
          | none => simp [hx, hy, hz] at hn
          | some _ =>
            cases hw : hexValue w with
            | none => simp [hx, hy, hz, hw] at hn
            | some _ => exact ⟨rfl, rfl, rfl, rfl⟩
    obtain ⟨hx, hy, hz, hw⟩ := hdigits
    intro c hc
    simp only [List.mem_cons, List.not_mem_nil, or_false] at hc
    rcases hc with rfl | rfl | rfl | rfl
    · exact hexValue_printable hx
    · exact hexValue_printable hy
    · exact hexValue_printable hz
    · exact hexValue_printable hw

theorem SpellsString.printable {w : Str} (h : SpellsString t w) : Printable t := by
  induction h with
  | nil => exact printable_nil
  | cons hc _ ih => exact hc.printable.append ih

theorem printable_intText (i : Int) : Printable (ofChars (intText i)) := by
  have hnat : ∀ n, Printable (ofChars (natText n)) := fun n c hc => by
    have hdigit : isDigit c = true := isDigit_natText hc
    cases c with
    | surrogate m => cases hdigit
    | scalar c =>
      exact (show 0x20 ≤ '0'.toNat by decide).trans (Char.isDigit_iff_toNat.mp hdigit).1
  rw [intText]
  split
  · exact .cons (by decide) (hnat _)
  · exact hnat _

mutual

/-- A spelled text is one line. -/
theorem Spells.printable : ∀ {t : Str} {v : α}, Spells b t v → Printable t
  | _, _, .null => by decide
  | _, _, .isTrue => by decide
  | _, _, .isFalse => by decide
  | _, _, .int i => printable_intText i
  | _, _, .str h => .cons (by decide) (h.printable.append (.cons (by decide) printable_nil))
  | _, _, .empty => by decide
  | _, _, .list h => .cons (by decide) (h.printable.append (.cons (by decide) printable_nil))
  | _, _, .bare _ => by decide
  | _, _, .object h _ => .cons (by decide) (h.printable.append (.cons (by decide) printable_nil))

theorem SpellsItems.printable : ∀ {t : Str} {vs : List α}, SpellsItems b t vs → Printable t
  | _, _, .single h => h.printable
  | _, _, .cons h hs => h.printable.append (.cons (by decide) hs.printable)

theorem SpellsMembers.printable : ∀ {t : Str} {ps : List (Str × α)}, SpellsMembers b t ps → Printable t
  | _, _, .single hk h => .cons (by decide)
    (hk.printable.append (.cons (by decide) (.cons (by decide) h.printable)))
  | _, _, .cons hk h hs => .cons (by decide) (hk.printable.append
    (.cons (by decide) (.cons (by decide) (h.printable.append (.cons (by decide) hs.printable)))))

end

end Dsl41.Infra.Json
