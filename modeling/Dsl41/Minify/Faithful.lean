import Dsl41.Minify.Reparse

/-!
# A faithful rewrite

The rewrite of a condition is faithful when what it leaves is the old text with every name in it renamed
and is read as the old tree with every name renamed. A blank beside the caret of an instance hides the
instance from the search, and a value that is one quote alone passes for a quoted text.
-/

namespace Dsl41.Minify

open Infra Conditions

/-! ## What the rewrite is for -/

/-- The edit that renames all names of an atom and keeps the rest of its text. -/
def renamedEdit (alloc : Allocator) (text : List Char) (c : Cond) : Option (Edit Char) := do
  let span ← atomSpan c
  let (a, _) ← readAtom (textOf text span)
  return { start := span.start, stop := span.stop, replacement := (a.renamed alloc).text }

/-- The rewrite succeeds; its text is the old one outside the names, and its tree the old one with every
name and value taken through the allocator. -/
def Faithful (alloc : Allocator) (text : String) (c : Cond) : Prop :=
  ∃ out c', rewriteCondition alloc text = .ok out ∧
    out.toList = applyEdits ((iterAtoms c).filterMap (renamedEdit alloc text.toList)) text.toList ∧
    parseCondition out = .ok c' ∧ mapAtoms unspanned c' = mapAtoms (renameAtom alloc) c

/-- No blank stands beside the caret of an instance that is to be renamed, and no value is a quote alone. -/
def Tight (alloc : Allocator) : AtomText → Prop
  | .job _ ref _ => ∀ x ∈ ref.suffix, (x.1 = [] ∧ x.2.1 = []) ∨
      alloc.simple .instance_ (String.ofList x.2.2) = String.ofList x.2.2
  | .global _ _ _ value => valueText value ≠ ['"']

/-- Every atom of the text is spelled tightly. -/
def TightlySpelled (alloc : Allocator) (text : List Char) (c : Cond) : Prop :=
  ∀ d ∈ iterAtoms c, ∀ span ∈ atomSpan d, ∀ read ∈ readAtom (textOf text span), Tight alloc read.1

instance (alloc : Allocator) : ∀ a : AtomText, Decidable (Tight alloc a)
  | .job _ ref _ => inferInstanceAs (Decidable (∀ x ∈ ref.suffix, (x.1 = [] ∧ x.2.1 = []) ∨
      alloc.simple .instance_ (String.ofList x.2.2) = String.ofList x.2.2))
  | .global _ _ _ value => inferInstanceAs (Decidable (valueText value ≠ ['"']))

instance (alloc : Allocator) (text : List Char) (c : Cond) : Decidable (TightlySpelled alloc text c) :=
  inferInstanceAs (Decidable (∀ d ∈ iterAtoms c, ∀ span ∈ atomSpan d, ∀ read ∈ readAtom (textOf text span), Tight alloc read.1))

section Faithful

variable {alloc : Allocator}

/-! ## One atom -/

theorem found_renamed {a : AtomText} (h : Tight alloc a) : a.found alloc = a.renamed alloc := by
  cases a with
  | job head ref tail =>
    rw [AtomText.found, AtomText.renamed, RefText.found]
    split_ifs with hglued
    · rfl
    · have hsuffix : ref.suffix = (ref.renamed alloc).suffix := by
        cases hx : ref.suffix with
        | none => rw [RefText.renamed, hx]; rfl
        | some x =>
          have hfixed : alloc.simple .instance_ (String.ofList x.2.2) = String.ofList x.2.2 := by
            refine (h x hx).resolve_left fun hx' => hglued fun y hy => ?_
            cases hx.symm.trans hy
            exact hx'
          rw [RefText.renamed, hx]
          simp only [Option.map_some, newInstance, hfixed, String.toList_ofList]
      rw [hsuffix]
  | global head name between value =>
    have hvalue : foundValue alloc value = renamedValue alloc value := by
      cases value with
      | quoted text => rfl
      | bare text =>
        have hne : text ≠ "\"" := fun heq => h (by rw [heq]; rfl)
        rw [foundValue, if_neg hne]
        rfl
    rw [AtomText.found, AtomText.renamed, hvalue]

theorem passOver_job {ref : RefText} (hglued : ¬ ref.Glued) :
    ({ ref.tree.build with name := alloc.job ref.tree.build.name } : Oracle.JobRef) = renameJob alloc ref.tree.build ↔
      ∀ x ∈ ref.suffix, (x.1 = [] ∧ x.2.1 = []) ∨ alloc.simple .instance_ (String.ofList x.2.2) = String.ofList x.2.2 := by
  cases hx : ref.suffix with
  | none =>
    refine absurd (fun x hx' => ?_) hglued
    rw [hx] at hx'
    cases hx'
  | some x =>
    have hloose : ¬ (x.1 = [] ∧ x.2.1 = []) := fun h => hglued fun y hy => by
      rw [hx] at hy
      cases hy
      exact h
    have hinstance : ref.tree.build.instance_ = some (String.ofList x.2.2) := by
      rw [JobTree.build, RefText.tree, hx]
      rfl
    rw [renameJob, hinstance, Option.map_some, Oracle.JobRef.mk.injEq, and_iff_right rfl, hinstance, Option.some.injEq]
    constructor
    · rintro h y ⟨⟩
      exact .inr h.symm
    · intro h
      exact ((h x rfl).resolve_left hloose).symm

/-- All names of an atom are found just when it is spelled tightly. -/
theorem foundAtom_iff (injective : alloc.Injective) {a : AtomText} {tree : AtomTree} {span : Option CondSpan} {c : Cond}
    (h : Spelled a tree) (hbuild : tree.build span = .ok c) : foundAtom alloc a c = renameAtom alloc c ↔ Tight alloc a := by
  cases h with
  | @status kw blanks close ref lookback hopen href hclose =>
    obtain ⟨l, -, hbuild⟩ := bind_eq_ok.mp hbuild
    split at hbuild
    · cases hbuild
    cases hbuild
    rw [foundAtom]
    by_cases hglued : ref.Glued
    · rw [if_pos (show AtomText.Found (.job _ ref _) from hglued)]
      exact iff_of_true rfl fun x hx => .inl (hglued x hx)
    · rw [if_neg (show ¬ AtomText.Found (.job _ ref _) from hglued), passOver, renameAtom, Cond.status.injEq,
        and_iff_left ⟨rfl, rfl, rfl⟩]
      exact passOver_job hglued
  | @exitcode kw blanks close gap word gap' digits ref lookback op hopen href hclose hgap hop hgap' hne hdigits =>
    obtain ⟨l, -, hbuild⟩ := bind_eq_ok.mp hbuild
    cases hbuild
    rw [foundAtom]
    by_cases hglued : ref.Glued
    · rw [if_pos (show AtomText.Found (.job _ ref _) from hglued)]
      exact iff_of_true rfl fun x hx => .inl (hglued x hx)
    · rw [if_neg (show ¬ AtomText.Found (.job _ ref _) from hglued), passOver, renameAtom, Cond.exitcode.injEq,
        and_iff_left ⟨rfl, rfl, rfl, rfl⟩]
      exact passOver_job hglued
  | @global kw blanks lead name gap gap' word gap'' op value hopen hlead hne hname hgap hgap' hop hgap'' hvalue hstop =>
    cases hbuild
    rw [foundAtom]
    by_cases hquote : valueText value ≠ ['"']
    · rw [if_pos (show AtomText.Found (.global _ _ _ value) from hquote)]
      exact iff_of_true rfl hquote
    · rw [if_neg (show ¬ AtomText.Found (.global _ _ _ value) from hquote), passOver, renameAtom, Cond.global.injEq]
      refine iff_of_false (fun heq => ?_) hquote
      have hvalue' : value.build = "\"" := by
        cases hvalue with
        | quoted hbetween =>
          rw [valueText, String.toList_ofList] at hquote
          simp at hquote
        | bare hne hall =>
          rw [valueText, String.toList_ofList] at hquote
          exact congrArg String.ofList (not_not.mp hquote)
      have hgvalue := injective.gvalue heq.2.2.1
      rw [hvalue'] at hgvalue
      exact absurd hgvalue (by decide)

/-! ## The condition -/

/-- The tree is the old one with every name renamed just when every atom is spelled tightly. -/
theorem mapAtoms_found_iff (injective : alloc.Injective) {text : List Char} {c : Cond}
    (hsited : ∀ d ∈ iterAtoms c, ∃ a, Sited text d a) :
    mapAtoms (foundIn alloc text) c = mapAtoms (renameAtom alloc) c ↔ TightlySpelled alloc text c := by
  rw [mapAtoms_eq_iff]
  refine forall₂_congr fun d hd => ?_
  obtain ⟨a, ha⟩ := hsited d hd
  obtain ⟨span, hspan, htext⟩ := ha.textOf
  have hread := ha.read
  rw [hspan, Option.bind_some] at hread
  have htight : (∀ span ∈ atomSpan d, ∀ read ∈ readAtom (textOf text span), Tight alloc read.1) ↔ Tight alloc a := by
    constructor
    · intro h
      exact h span hspan (a, []) hread
    · intro h span' hspan' read hread'
      cases hspan.symm.trans hspan'
      cases hread.symm.trans hread'
      exact h
  rw [ha.foundIn, htight]
  obtain ⟨left, rest, tree, -, -, hspelled, -, hbuild⟩ := ha
  exact foundAtom_iff injective hspelled hbuild

/-- The edits of atoms that are spelled tightly rename all their names. -/
theorem edits_renamed {text : List Char} {c : Cond} {edits : List (Edit Char)}
    (hedits : List.Forall₂ (fun d e => editOf alloc text d = .ok e) (iterAtoms c) edits)
    (hsited : ∀ d ∈ iterAtoms c, ∃ a, Sited text d a) (htight : TightlySpelled alloc text c) :
    (iterAtoms c).filterMap (renamedEdit alloc text) = edits := by
  rw [TightlySpelled] at htight
  generalize iterAtoms c = atoms at *
  induction hedits with
  | nil => rfl
  | @cons d e atoms edits hedit _ ih =>
    obtain ⟨a, ha⟩ := hsited d List.mem_cons_self
    obtain ⟨span, hspan, htext⟩ := ha.textOf
    obtain ⟨span', hspan', hfound⟩ := ha.edit alloc
    cases hspan.symm.trans hspan'
    have hread := ha.read
    rw [hspan, Option.bind_some] at hread
    have ha' : Tight alloc a := htight d List.mem_cons_self span hspan (a, []) hread
    have he : e = ⟨span.start, span.stop, (a.renamed alloc).text⟩ := by
      rw [← found_renamed ha']
      exact Except.ok.inj (hedit.symm.trans hfound)
    have hrenamed : renamedEdit alloc text d = some e := by
      rw [renamedEdit, hspan, he]
      simp only [Option.bind_eq_bind, Option.bind_some, hread]
      rfl
    rw [List.filterMap_cons_some hrenamed, ih (fun d hd => hsited d (List.mem_cons_of_mem _ hd))
      fun d hd => htight d (List.mem_cons_of_mem _ hd)]

/-- What a faithful rewrite needs of the text. -/
theorem Faithful.tight (legal : alloc.Legal) (injective : alloc.Injective) {text : String} {c : Cond}
    (h : parseCondition text = .ok c) (hfaithful : Faithful alloc text c) : TightlySpelled alloc text.toList c := by
  obtain ⟨edits, c', -, hrewrite, hparse, hsame, hsited⟩ := rewriteCondition_found legal h
  obtain ⟨out, d, hout, -, hd, hrenamed⟩ := hfaithful
  cases hrewrite.symm.trans hout
  cases hparse.symm.trans hd
  exact (mapAtoms_found_iff injective hsited).mp (hsame.symm.trans hrenamed)

/-- The rewrite of a condition that the parser accepts is faithful just when no blank stands beside the
caret of an instance that is to be renamed and no value is a quote alone. -/
theorem rewriteCondition_faithful_iff (legal : alloc.Legal) (injective : alloc.Injective) {text : String} {c : Cond}
    (h : parseCondition text = .ok c) : Faithful alloc text c ↔ TightlySpelled alloc text.toList c := by
  refine ⟨Faithful.tight legal injective h, fun htight => ?_⟩
  obtain ⟨edits, c', hedits, hrewrite, hparse, hsame, hsited⟩ := rewriteCondition_found legal h
  refine ⟨_, c', hrewrite, ?_, hparse, hsame.trans ((mapAtoms_found_iff injective hsited).mpr htight)⟩
  rw [edits_renamed hedits hsited htight, String.toList_ofList]

end Faithful

/-! ## Blanks beside a caret -/

/-- A letter in front of every name. -/
def prefixed : Allocator where
  job name := "j" ++ name
  simple
    | .instance_, name => "x" ++ name
    | .global, name => "g" ++ name
  gvalue value := "v" ++ value

theorem prefixed_legal : prefixed.Legal where
  job name h := by
    rw [IsJobName, prefixed, String.toList_append]
    exact ⟨List.cons_ne_nil _ _, List.forall_mem_cons.mpr ⟨.inl (by decide), h.2⟩⟩
  instance_ name h := by
    rw [IsInstanceName, prefixed, String.toList_append]
    exact ⟨List.cons_ne_nil _ _, List.forall_mem_cons.mpr ⟨by decide, h.2⟩⟩
  global name h := by
    rw [IsGlobalName, prefixed, String.toList_append]
    exact ⟨List.cons_ne_nil _ _, List.forall_mem_cons.mpr ⟨by decide, h.2⟩⟩
  bare value h := by
    rw [IsBareValue, prefixed, String.toList_append]
    refine ⟨⟨List.cons_ne_nil _ _, List.forall_mem_cons.mpr ⟨by decide, h.2⟩⟩, ?_⟩
    rintro c ⟨⟩
    decide
  quoted value h := by
    rw [prefixed, String.toList_append]
    exact fun hmem => (List.mem_cons.mp hmem).elim (by decide) h

theorem prefixed_injective : prefixed.Injective where
  job _ _ h := String.append_right_inj _ |>.mp h
  simple namespace_ _ _ h := by
    cases namespace_ with
    | instance_ => exact String.append_right_inj _ |>.mp h
    | global => exact String.append_right_inj _ |>.mp h
  gvalue _ _ h := String.append_right_inj _ |>.mp h

/-- With a blank before the caret the instance keeps its name. -/
theorem rewriteCondition_unfaithful : ∃ c, parseCondition "s(A ^PRD)" = .ok c ∧ prefixed.Legal ∧ prefixed.Injective ∧
    rewriteCondition prefixed "s(A ^PRD)" = .ok "s(jA ^PRD)" ∧ ¬ Faithful prefixed "s(A ^PRD)" c := by
  obtain ⟨c, hc, hloose⟩ : ∃ c, parseCondition "s(A ^PRD)" = .ok c ∧
      (decide (¬ TightlySpelled prefixed "s(A ^PRD)".toList c)) = true := exists_of_any (by decide +kernel)
  refine ⟨c, hc, prefixed_legal, prefixed_injective, by decide +kernel, fun h => ?_⟩
  exact of_decide_eq_true hloose (h.tight prefixed_legal prefixed_injective hc)

/-- Blanks elsewhere, an escaped colon, a lookback, keywords in capitals and a quoted value. -/
theorem rewriteCondition_faithful_iff_mixed : ∃ c,
    parseCondition "S( a\\:b^I1 , 01.30 ) AND\tv( G ) = \"q r\"" = .ok c ∧
      Faithful prefixed "S( a\\:b^I1 , 01.30 ) AND\tv( G ) = \"q r\"" c := by
  obtain ⟨c, hc, htight⟩ : ∃ c, parseCondition "S( a\\:b^I1 , 01.30 ) AND\tv( G ) = \"q r\"" = .ok c ∧
      (decide (TightlySpelled prefixed "S( a\\:b^I1 , 01.30 ) AND\tv( G ) = \"q r\"".toList c)) = true :=
    exists_of_any (by decide +kernel)
  exact ⟨c, hc, (rewriteCondition_faithful_iff prefixed_legal prefixed_injective hc).mpr (of_decide_eq_true htight)⟩

end Dsl41.Minify
