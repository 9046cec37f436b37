import Dsl41.Conditions.Parser
import Dsl41.Conditions.Reading

/-!
# What a text is lowered to

The tree of a text has pieces that the terminals take: names, instances, lookbacks and numbers, and
nodes of two operands or more.
-/

namespace Dsl41.Conditions

open Infra Oracle

structure JobLexical (job : JobRef) : Prop where
  name_ne : job.name.toList ≠ []
  name_chars : ∀ c ∈ job.name.toList, isNameChar c = true ∨ c = ':'
  instance_chars : ∀ i ∈ job.instance_, i.toList ≠ [] ∧ ∀ c ∈ i.toList, isInstanceChar c = true

/-- The token of a lookback says what the lookback is. -/
def LookbackLexical (lookback : Option Lookback) : Prop := ∀ l ∈ lookback, ∃ pos, parseLookback l.raw pos = .ok l

/-- What a text is lowered to. -/
inductive Lexical : Cond → Prop
  | status {job st lookback span} : JobLexical job → LookbackLexical lookback → Lexical (.status job st lookback span)
  | exitcode {job op lookback span} (value : Nat) : JobLexical job → LookbackLexical lookback →
      Lexical (.exitcode job op value lookback span)
  | global {name op value span} : name.toList ≠ [] → (∀ c ∈ name.toList, isGlobalChar c = true) →
      Lexical (.global name op value span)
  | and {operands span} : 2 ≤ operands.length → (∀ c ∈ operands, Lexical c) → Lexical (.and operands span)
  | or {operands span} : 2 ≤ operands.length → (∀ c ∈ operands, Lexical c) → Lexical (.or operands span)
  | paren {inner span} : Lexical inner → Lexical (.paren inner span)

section Lowering

variable {s rest : List Char} {total : Nat}

theorem charsOf_spec {p : Char → Bool} {run : List Char} (h : charsOf p s = some (run, rest)) :
    run ≠ [] ∧ ∀ c ∈ run, p c = true := by
  unfold charsOf at h
  split_ifs at h with hne
  cases h
  exact ⟨hne, fun c hc => List.mem_takeWhile_imp hc⟩

theorem not_backslash {c : Char} (h : isNameChar c = true) : c ≠ '\\' := by
  rintro rfl
  exact absurd h (by decide)

theorem unescape_cons {c : Char} (h : c ≠ '\\') (l : List Char) : unescape (c :: l) = c :: unescape l := by
  rw [unescape]
  rintro rest rfl
  exact absurd rfl h

/-- An unescaped name has the characters of names, and colons. -/
theorem unescape_span : ∀ s : List Char, ∀ c ∈ unescape (escapedSpan isNameChar s).1, isNameChar c = true ∨ c = ':' := by
  intro s
  fun_induction escapedSpan isNameChar s with
  | case1 rest name rest' heq ih =>
    rw [heq] at ih
    rw [unescape]
    exact List.forall_mem_cons.mpr ⟨.inr rfl, ih⟩
  | case2 c rest hne hchar name rest' heq ih =>
    rw [heq] at ih
    rw [unescape_cons (not_backslash hchar)]
    exact List.forall_mem_cons.mpr ⟨.inl hchar, ih⟩
  | case3 c rest hne hchar => simp [unescape, escapedSpan]
  | case4 => simp [unescape, escapedSpan]

theorem unescape_ne_nil {l : List Char} (h : l ≠ []) : unescape l ≠ [] := by
  fun_cases unescape l with
  | case1 rest => exact List.cons_ne_nil _ _
  | case2 c rest => exact List.cons_ne_nil _ _
  | case3 => exact absurd rfl h

theorem jobRef_lexical {job : JobTree} (h : jobRef s = some (job, rest)) : JobLexical job.build := by
  obtain ⟨⟨name, more⟩, hname, h⟩ := Option.bind_eq_some_iff.mp h
  unfold jobName at hname
  dsimp only at hname
  split_ifs at hname with hne
  have hname' : (escapedSpan isNameChar (skipWs s)).1 = name := congrArg Prod.fst (Option.some.inj hname)
  have hlexical : (unescapeJobName (String.ofList name)).toList ≠ [] ∧
      ∀ c ∈ (unescapeJobName (String.ofList name)).toList, isNameChar c = true ∨ c = ':' := by
    rw [unescapeJobName, String.toList_ofList, String.toList_ofList, ← hname']
    exact ⟨unescape_ne_nil hne, unescape_span _⟩
  dsimp only at h
  split at h
  · obtain ⟨⟨inst, after⟩, hinst, h⟩ := Option.bind_eq_some_iff.mp h
    cases h
    refine ⟨hlexical.1, hlexical.2, ?_⟩
    rintro i ⟨⟩
    rw [String.toList_ofList]
    exact charsOf_spec hinst
  · cases h
    exact ⟨hlexical.1, hlexical.2, nofun⟩

theorem parseLookback_raw {raw : String} {pos : Nat} {l : Lookback} (h : parseLookback raw pos = .ok l) : l.raw = raw := by
  unfold parseLookback at h
  split at h
  · cases h
  all_goals
    split_ifs at h
    all_goals
      cases h
      rfl

theorem buildLookback_lexical {token : Option Token} {lookback : Option Lookback}
    (h : buildLookback token = .ok lookback) : LookbackLexical lookback := by
  cases token with
  | none =>
    cases h
    exact nofun
  | some token =>
    obtain ⟨l, hl, h⟩ := bind_eq_ok.mp h
    cases h
    rintro _ ⟨⟩
    exact ⟨token.start_pos, by rw [parseLookback_raw hl, hl]⟩

theorem jobAndLookback_lexical {job : JobTree} {token : Option Token} {lookback : Option Lookback}
    (h : jobAndLookback total s = some ((job, token), rest)) (hbuild : buildLookback token = .ok lookback) :
    JobLexical job.build ∧ LookbackLexical lookback := by
  obtain ⟨s₁, hopen, h⟩ := Option.bind_eq_some_iff.mp h
  obtain ⟨⟨job', s₂⟩, hjob, h⟩ := Option.bind_eq_some_iff.mp h
  obtain ⟨⟨token', s₃⟩, htoken, h⟩ := Option.bind_eq_some_iff.mp h
  obtain ⟨s₄, hclose, h⟩ := Option.bind_eq_some_iff.mp h
  cases h
  exact ⟨jobRef_lexical hjob, buildLookback_lexical hbuild⟩

theorem atom_lexical {a : AtomTree} {span : Option CondSpan} {c : Cond} (h : atom total s = some (a, rest))
    (hbuild : a.build span = .ok c) : Lexical c := by
  rcases Option.or_eq_some_iff.mp h with h | ⟨-, h⟩
  · obtain ⟨⟨kw, s₁⟩, hkw, h⟩ := Option.bind_eq_some_iff.mp h
    obtain ⟨⟨⟨job, token⟩, s₂⟩, hjob, h⟩ := Option.bind_eq_some_iff.mp h
    cases h
    obtain ⟨lookback, hlookback, hbuild⟩ := bind_eq_ok.mp hbuild
    obtain ⟨hname, hraw⟩ := jobAndLookback_lexical hjob hlookback
    split at hbuild
    · cases hbuild
    · cases hbuild
      exact .status hname hraw
  rcases Option.or_eq_some_iff.mp h with h | ⟨-, h⟩
  · obtain ⟨⟨kw, s₁⟩, hkw, h⟩ := Option.bind_eq_some_iff.mp h
    obtain ⟨⟨⟨job, token⟩, s₂⟩, hjob, h⟩ := Option.bind_eq_some_iff.mp h
    obtain ⟨⟨op, s₃⟩, hop, h⟩ := Option.bind_eq_some_iff.mp h
    obtain ⟨⟨value, s₄⟩, hvalue, h⟩ := Option.bind_eq_some_iff.mp h
    cases h
    obtain ⟨lookback, hlookback, hbuild⟩ := bind_eq_ok.mp hbuild
    obtain ⟨hname, hraw⟩ := jobAndLookback_lexical hjob hlookback
    cases hbuild
    exact .exitcode _ hname hraw
  · obtain ⟨⟨kw, s₁⟩, hkw, h⟩ := Option.bind_eq_some_iff.mp h
    obtain ⟨s₂, hopen, h⟩ := Option.bind_eq_some_iff.mp h
    obtain ⟨⟨name, s₃⟩, hname, h⟩ := Option.bind_eq_some_iff.mp h
    obtain ⟨s₄, hclose, h⟩ := Option.bind_eq_some_iff.mp h
    obtain ⟨⟨op, s₅⟩, hop, h⟩ := Option.bind_eq_some_iff.mp h
    obtain ⟨⟨value, s₆⟩, hvalue, h⟩ := Option.bind_eq_some_iff.mp h
    cases h
    cases hbuild
    have hspec := charsOf_spec hname
    rw [← String.toList_ofList (l := name)] at hspec
    exact .global hspec.1 hspec.2

/-- A combination has two operands or more. -/
theorem combine_lexical {is_and : Bool} {left right : Cond} {span : Option CondSpan} (hl : Lexical left)
    (hr : Lexical right) : Lexical (combine is_and left right span) := by
  have hpair : ∀ c ∈ [left, right], Lexical c := by
    rintro c (_ | ⟨_, _ | ⟨_, ⟨⟩⟩⟩)
    · exact hl
    · exact hr
  have happend {operands : List Cond} (hlen : 2 ≤ operands.length) (hall : ∀ c ∈ operands, Lexical c) :
      2 ≤ (operands ++ [right]).length ∧ ∀ c ∈ operands ++ [right], Lexical c := by
    refine ⟨le_trans hlen (List.length_append.ge.trans' (Nat.le_add_right _ _)), fun c hc => ?_⟩
    rcases List.mem_append.mp hc with hc | hc
    · exact hall c hc
    · rw [List.mem_singleton.mp hc]
      exact hr
  cases is_and with
  | true =>
    simp only [combine, if_true]
    split
    · cases hl with
      | and hlen hall => exact .and (happend hlen hall).1 (happend hlen hall).2
    · exact .and le_rfl hpair
  | false =>
    simp only [combine, Bool.false_eq_true, if_false]
    split
    · cases hl with
      | or hlen hall => exact .or (happend hlen hall).1 (happend hlen hall).2
    · exact .or le_rfl hpair

mutual

theorem operand_lexical : ∀ (fuel : Nat) {s rest : List Char} {o : Operand} {c : Cond},
    operand total fuel s = some (o, rest) → o.build = .ok c → Lexical c
  | fuel + 1, s, rest, o, c, h, hbuild => by
    rw [operand] at h
    split at h
    · next more heq =>
      obtain ⟨⟨first, s₁⟩, hfirst, h⟩ := Option.bind_eq_some_iff.mp h
      obtain ⟨⟨inner, s₂⟩, hinner, h⟩ := Option.bind_eq_some_iff.mp h
      obtain ⟨s₃, hclose, h⟩ := Option.bind_eq_some_iff.mp h
      cases h
      rw [Operand.build_paren] at hbuild
      obtain ⟨d, hd, hc⟩ := bind_eq_ok.mp hbuild
      cases hc
      refine .paren (binops_lexical fuel hinner (fun l hl => ?_) hd)
      rw [Expr.build_operand] at hl
      exact operand_lexical fuel hfirst hl
    · obtain ⟨⟨a, after⟩, hatom, h⟩ := Option.bind_eq_some_iff.mp h
      cases h
      exact atom_lexical hatom hbuild

theorem binops_lexical : ∀ (fuel : Nat) {start s rest : List Char} {left e : Expr} {c : Cond},
    binops total fuel start left s = some (e, rest) → (∀ l, left.build = .ok l → Lexical l) →
      e.build = .ok c → Lexical c
  | fuel + 1, start, s, rest, left, e, c, h, hleft, hbuild => by
    rw [binops] at h
    split at h
    · cases h
      exact hleft c hbuild
    · next op more hop =>
      obtain ⟨⟨right, after⟩, hright, h⟩ := Option.bind_eq_some_iff.mp h
      refine binops_lexical fuel h (fun l hl => ?_) hbuild
      rw [Expr.build_binop] at hl
      obtain ⟨l₁, h₁, hl⟩ := bind_eq_ok.mp hl
      obtain ⟨l₂, h₂, hl⟩ := bind_eq_ok.mp hl
      cases hl
      exact combine_lexical (hleft l₁ h₁) (operand_lexical fuel hright h₂)

end

end Lowering

end Dsl41.Conditions
