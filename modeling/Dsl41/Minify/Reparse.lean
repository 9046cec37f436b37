import Dsl41.Minify.Renaming

/-!
# Reading the rewritten text

The rewrite replaces the atoms of a text where they stand. The parser reads what comes of it as the old
tree, with each atom replaced by what its new text says.
-/

namespace Dsl41.Minify

open Infra Conditions

/-! ## Trees without places -/

mutual

/-- A tree with each atom taken through a map; the nodes have no spans. -/
def mapAtoms (f : Cond → Cond) : Cond → Cond
  | .and operands _ => .and (mapAll f operands) none
  | .or operands _ => .or (mapAll f operands) none
  | .paren inner _ => .paren (mapAtoms f inner) none
  | atom => f atom

def mapAll (f : Cond → Cond) : List Cond → List Cond
  | [] => []
  | operand :: operands => mapAtoms f operand :: mapAll f operands

end

/-- A map of atoms to atoms. -/
def Leafy (f : Cond → Cond) : Prop := ∀ c, c.isNode = false → (f c).isNode = false

section Trees

variable {f g : Cond → Cond} {c left right : Cond} {span : Option CondSpan}

theorem mapAll_append : ∀ l l' : List Cond, mapAll f (l ++ l') = mapAll f l ++ mapAll f l'
  | [], _ => rfl
  | c :: l, l' => congrArg (mapAtoms f c :: ·) (mapAll_append l l')

theorem iterAll_append : ∀ l l' : List Cond, iterAll (l ++ l') = iterAll l ++ iterAll l'
  | [], _ => rfl
  | c :: l, l' => by rw [List.cons_append, iterAll, iterAll, iterAll_append l l', List.append_assoc]

theorem isNode_mapAtoms (hf : Leafy f) (c : Cond) : (mapAtoms f c).isNode = c.isNode := by
  cases c with
  | status job status lookback span => exact hf _ rfl
  | exitcode job op value lookback span => exact hf _ rfl
  | global name op value span => exact hf _ rfl
  | and operands span => rfl
  | or operands span => rfl
  | paren inner span => rfl

theorem combine_leaf (is_and : Bool) (h : left.isNode = false) :
    combine is_and left right span = if is_and then .and [left, right] span else .or [left, right] span := by
  cases left with
  | and operands span' => cases h
  | or operands span' => cases h
  | status job status lookback span' => rfl
  | exitcode job op value lookback span' => rfl
  | global name op value span' => rfl
  | paren inner span' => rfl

theorem iterAtoms_combine (is_and : Bool) : iterAtoms (combine is_and left right span) = iterAtoms left ++ iterAtoms right := by
  by_cases hleft : left.isNode = false
  · rw [combine_leaf is_and hleft]
    cases is_and <;> simp [iterAtoms, iterAll]
  · cases left with
    | and operands span' => cases is_and <;> simp [combine, iterAtoms, iterAll, iterAll_append]
    | or operands span' => cases is_and <;> simp [combine, iterAtoms, iterAll, iterAll_append]
    | status job status lookback span' => exact absurd rfl hleft
    | exitcode job op value lookback span' => exact absurd rfl hleft
    | global name op value span' => exact absurd rfl hleft
    | paren inner span' => exact absurd rfl hleft

theorem mapAtoms_combine (hf : Leafy f) (is_and : Bool) :
    mapAtoms f (combine is_and left right span) = combine is_and (mapAtoms f left) (mapAtoms f right) none := by
  by_cases hleft : left.isNode = false
  · rw [combine_leaf is_and hleft, combine_leaf is_and ((isNode_mapAtoms hf left).trans hleft)]
    cases is_and <;> simp [mapAtoms, mapAll]
  · cases left with
    | and operands span' => cases is_and <;> simp [combine, mapAtoms, mapAll, mapAll_append]
    | or operands span' => cases is_and <;> simp [combine, mapAtoms, mapAll, mapAll_append]
    | status job status lookback span' => exact absurd rfl hleft
    | exitcode job op value lookback span' => exact absurd rfl hleft
    | global name op value span' => exact absurd rfl hleft
    | paren inner span' => exact absurd rfl hleft

mutual

/-- Two maps make one tree where they agree on its atoms. -/
theorem mapAtoms_eq_iff : ∀ c : Cond, mapAtoms f c = mapAtoms g c ↔ ∀ d ∈ iterAtoms c, f d = g d
  | .and operands _ => by
    rw [mapAtoms, mapAtoms, iterAtoms, Cond.and.injEq, and_iff_left rfl]
    exact mapAll_eq_iff operands
  | .or operands _ => by
    rw [mapAtoms, mapAtoms, iterAtoms, Cond.or.injEq, and_iff_left rfl]
    exact mapAll_eq_iff operands
  | .paren inner _ => by
    rw [mapAtoms, mapAtoms, iterAtoms, Cond.paren.injEq, and_iff_left rfl]
    exact mapAtoms_eq_iff inner
  | .status _ _ _ _ => by simp [mapAtoms, iterAtoms]
  | .exitcode _ _ _ _ _ => by simp [mapAtoms, iterAtoms]
  | .global _ _ _ _ => by simp [mapAtoms, iterAtoms]

theorem mapAll_eq_iff : ∀ l : List Cond, mapAll f l = mapAll g l ↔ ∀ d ∈ iterAll l, f d = g d
  | [] => by simp [mapAll, iterAll]
  | c :: l => by
    rw [mapAll, mapAll, iterAll, List.cons.injEq, List.forall_mem_append, mapAtoms_eq_iff c, mapAll_eq_iff l]

end

end Trees

/-! ## Atoms in a text -/

/-- An atom of the tree stands in the text, and is spelled so. -/
def Sited (text : List Char) (c : Cond) (a : AtomText) : Prop :=
  ∃ left rest tree, text = left ++ (a.text ++ rest) ∧ atomSpan c = some ⟨left.length, left.length + a.text.length⟩ ∧
    Spelled a tree ∧ EndsAtom tree rest ∧ tree.build (atomSpan c) = .ok c

/-- What the rewrite makes of an atom's tree. -/
def foundIn (alloc : Allocator) (text : List Char) (c : Cond) : Cond :=
  match (atomSpan c).bind fun span => readAtom (textOf text span) with
  | some (a, _) => foundAtom alloc a c
  | none => c

section Atoms

variable {alloc : Allocator} {text : List Char} {c : Cond} {a : AtomText}

theorem Sited.textOf (h : Sited text c a) : ∃ span, atomSpan c = some span ∧ textOf text span = a.text := by
  obtain ⟨left, rest, tree, rfl, hspan, -, -, -⟩ := h
  refine ⟨_, hspan, ?_⟩
  rw [Minify.textOf, List.take_length_add_append, List.take_left, List.drop_left]

theorem Sited.read (h : Sited text c a) : ((atomSpan c).bind fun span => readAtom (Minify.textOf text span)) = some (a, []) := by
  obtain ⟨span, hspan, htext⟩ := h.textOf
  obtain ⟨left, rest, tree, -, -, hspelled, hends, -⟩ := h
  have hread := (hspelled.read hends.nil).2
  rw [List.append_nil] at hread
  rw [hspan, Option.bind_some, htext, hread]

theorem Sited.foundIn (h : Sited text c a) : foundIn alloc text c = foundAtom alloc a c := by
  rw [Minify.foundIn, h.read]

/-- The edit of an atom replaces its text by the found pieces. -/
theorem Sited.edit (alloc : Allocator) (h : Sited text c a) :
    ∃ span, atomSpan c = some span ∧ editOf alloc text c = .ok ⟨span.start, span.stop, (a.found alloc).text⟩ := by
  obtain ⟨span, hspan, htext⟩ := h.textOf
  obtain ⟨left, rest, tree, -, -, hspelled, hends, hbuild⟩ := h
  refine ⟨span, hspan, ?_⟩
  have hbody : rewriteAtom alloc c (Minify.textOf text span) = .ok (a.found alloc).text := by
    rw [htext]
    rw [hspan] at hbuild
    cases hspelled with
    | status hopen href hclose =>
      obtain ⟨l, -, hbuild⟩ := bind_eq_ok.mp hbuild
      split at hbuild
      · cases hbuild
      · cases hbuild
        have htail := (hclose 0 []).1
        rw [List.append_nil] at htail
        exact rewriteJobAtom_spelled letters_keywords.1 hopen href htail
    | @exitcode kw blanks close gap word gap' digits ref lookback op hopen href hclose hgap hop hgap' hne hdigits =>
      obtain ⟨l, -, hbuild⟩ := bind_eq_ok.mp hbuild
      cases hbuild
      exact rewriteJobAtom_spelled letters_keywords.2.1 hopen href (hclose 0 (gap ++ (word ++ (gap' ++ digits)))).1
    | global hopen hlead hne hname hgap hgap' hop hgap'' hvalue hstop =>
      cases hbuild
      exact rewriteGlobalAtom_spelled (.global hopen hlead hne hname hgap hgap' hop hgap'' hvalue hstop) (EndsValue.nil hends)
  rw [editOf, hspan]
  simp only [hbody, Infra.ok_bind]
  rfl

theorem leafy_foundIn : Leafy (foundIn alloc text) := by
  intro c hc
  have hrename : (renameAtom alloc c).isNode = false := by
    cases c with
    | and operands span => cases hc
    | or operands span => cases hc
    | status job status lookback span => rfl
    | exitcode job op value lookback span => rfl
    | global name op value span => rfl
    | paren inner span => rfl
  have hpass : (passOver alloc c).isNode = false := by
    cases c with
    | and operands span => cases hc
    | or operands span => cases hc
    | status job status lookback span => rfl
    | exitcode job op value lookback span => rfl
    | global name op value span => rfl
    | paren inner span => rfl
  rw [Minify.foundIn]
  split
  · rw [foundAtom]
    split_ifs
    · exact hrename
    · exact hpass
  · exact hc

theorem leafy_unspanned : Leafy unspanned := by
  intro c hc
  cases c with
  | and operands span => cases hc
  | or operands span => cases hc
  | status job status lookback span => rfl
  | exitcode job op value lookback span => rfl
  | global name op value span => rfl
  | paren inner span => rfl

theorem found_head (alloc : Allocator) {tree : AtomTree} (h : Spelled a tree) :
    a.text ≠ [] ∧ (a.found alloc).text.head? = a.text.head? := by
  have hhead {kw more : List Char} (rest rest' : List Char) (hne : kw ++ more ≠ []) :
      (kw ++ more ++ rest).head? = (kw ++ more ++ rest').head? := by
    rw [List.head?_append_of_ne_nil _ hne, List.head?_append_of_ne_nil _ hne]
  cases h with
  | status hopen href hclose => exact ⟨by simp [AtomText.text], hhead _ _ (by simp)⟩
  | exitcode hopen href hclose => exact ⟨by simp [AtomText.text], hhead _ _ (by simp)⟩
  | global hopen hlead => exact ⟨by simp [AtomText.text], hhead _ _ (by simp)⟩

end Atoms

/-! ## A stretch of the text -/

/-- A stretch of the text before the rewrite and after it, with the atoms that stand in it. -/
structure Rewritten (alloc : Allocator) (text : List Char) (n : Nat) (before after : List Char) (atoms : List Cond) :
    Prop where
  edits : ∃ edits, Covers n edits before after ∧ List.Forall₂ (fun c e => editOf alloc text c = .ok e) atoms edits
  head : after.head? = before.head?
  sited : ∀ c ∈ atoms, ∃ a, Sited text c a

section Stretches

variable {alloc : Allocator} {text before after before' after' rest rest' : List Char} {n : Nat} {atoms atoms' : List Cond}

theorem head?_append_congr (h : after.head? = before.head?) (h' : after'.head? = before'.head?) :
    (after ++ after').head? = (before ++ before').head? := by
  rw [List.head?_append, List.head?_append, h, h']

theorem Ends.append (h : after.head? = before.head?) (hrest : Ends rest rest') : Ends (before ++ rest) (after ++ rest') := by
  intro c hc
  rw [List.head?_append, h] at hc
  rw [List.head?_append]
  cases hhead : before.head? with
  | none =>
    rw [hhead] at hc
    exact hrest c hc
  | some d =>
    rw [hhead] at hc
    exact hc

theorem Rewritten.gap (gap : List Char) : Rewritten alloc text n gap gap [] where
  edits := ⟨[], .gap n gap, .nil⟩
  head := rfl
  sited := nofun

theorem Rewritten.append (h : Rewritten alloc text n before after atoms)
    (h' : Rewritten alloc text (n + before.length) before' after' atoms') :
    Rewritten alloc text n (before ++ before') (after ++ after') (atoms ++ atoms') where
  edits := by
    obtain ⟨edits, hcovers, hedits⟩ := h.edits
    obtain ⟨edits', hcovers', hedits'⟩ := h'.edits
    exact ⟨edits ++ edits', hcovers.append hcovers', List.rel_append hedits hedits'⟩
  head := head?_append_congr h.head h'.head
  sited := fun c hc => (List.mem_append.mp hc).elim (h.sited c) (h'.sited c)

theorem Rewritten.atom (alloc : Allocator) {c : Cond} {a : AtomText} {left : List Char} {tree : AtomTree} (htext : text = left ++ (a.text ++ rest))
    (hspan : atomSpan c = some ⟨left.length, left.length + a.text.length⟩) (hspelled : Spelled a tree)
    (hends : EndsAtom tree rest) (hbuild : tree.build (atomSpan c) = .ok c) :
    Rewritten alloc text left.length a.text (a.found alloc).text [c] where
  edits := by
    have hsited : Sited text c a := ⟨left, rest, tree, htext, hspan, hspelled, hends, hbuild⟩
    obtain ⟨span, hspan', hedit⟩ := hsited.edit alloc
    rw [hspan] at hspan'
    cases hspan'
    exact ⟨_, .one, .cons hedit .nil⟩
  head := (found_head alloc hspelled).2
  sited := fun d hd => by
    rw [List.mem_singleton.mp hd]
    exact ⟨a, left, rest, tree, htext, hspan, hspelled, hends, hbuild⟩

end Stretches

/-! ## Operators -/

section Operators

variable {s rest rest' : List Char}

theorem takeWord_letters {word taken : List Char} (h : List.Forall₂ (fun k c => sameLetter k c = true) word taken)
    (rest : List Char) : takeWord word (taken ++ rest) = some (taken, rest) := by
  induction h with
  | nil => rfl
  | cons hletter _ ih => rw [List.cons_append, takeWord, if_pos hletter, ih]; rfl

/-- An operator is read whatever follows it. -/
theorem oneOf_append {words : List (List Char)} (hapart : words.Pairwise fun word' word => apart word word' = true)
    {taken : List Char} (h : oneOf words s = some (taken, rest)) (rest' : List Char) :
    oneOf words (taken ++ rest') = some (taken, rest') := by
  obtain ⟨-, word, hmem, hall⟩ := oneOf_split h
  clear h
  induction words with
  | nil => cases hmem
  | cons word' words ih =>
    rw [oneOf, List.findSome?_cons]
    rcases List.mem_cons.mp hmem with rfl | hmem
    · rw [takeWord_letters hall]
    · rw [takeWord_apart ((List.pairwise_cons.mp hapart).1 word hmem) hall]
      exact ih (List.pairwise_cons.mp hapart).2 hmem

theorem operators_apart : (AND ++ OR).Pairwise fun word' word => apart word word' = true := by decide

end Operators

section Reading

variable {alloc : Allocator} {text : List Char}

/-- What the rewritten text of an operand is read as. -/
def ReadsAs (alloc : Allocator) (text after rest : List Char) (c : Cond) : Prop :=
  ∀ rest', Ends rest rest' → ∀ total fuel, (after ++ rest').length < fuel → ∃ o c', operand total fuel (after ++ rest') = some (o, rest') ∧
    o.build = .ok c' ∧ mapAtoms unspanned c' = mapAtoms (foundIn alloc text) c

theorem build_leaf {tree : AtomTree} {span : Option CondSpan} {c : Cond} (h : tree.build span = .ok c) :
    atomSpan c = span ∧ iterAtoms c = [c] ∧ ∀ f, mapAtoms f c = f c := by
  cases tree with
  | status_atom kw job lookback =>
    obtain ⟨l, -, h⟩ := bind_eq_ok.mp h
    split at h
    · cases h
    · cases h
      exact ⟨rfl, rfl, fun _ => rfl⟩
  | exitcode_atom kw job lookback op value =>
    obtain ⟨l, -, h⟩ := bind_eq_ok.mp h
    cases h
    exact ⟨rfl, rfl, fun _ => rfl⟩
  | global_atom kw name op value =>
    cases h
    exact ⟨rfl, rfl, fun _ => rfl⟩

theorem operand_skip {blanks s : List Char} {total : Nat} (h : Blank blanks) (fuel : Nat) :
    operand total (fuel + 1) (blanks ++ s) = operand total (fuel + 1) s := by
  rw [operand, operand, skipWs_blank h]

theorem skipWs_first {s more : List Char} {c : Char} (h : skipWs s = c :: more) : isWs c = false := by
  have hdrop : s.dropWhile isWs = c :: more := h
  have hhead := List.head_dropWhile_not isWs (l := s) (by rw [hdrop]; exact List.cons_ne_nil _ _)
  simp only [hdrop, List.head_cons] at hhead
  exact hhead

theorem operand_atom_rewritten (legal : alloc.Legal) {left s rest : List Char} {tree : AtomTree} {c : Cond}
    (htext : text = left ++ s) (hatom : atom text.length (skipWs s) = some (tree, rest))
    (hparen : ∀ more, skipWs s ≠ '(' :: more) (hbuild : tree.build (spanOf text.length (skipWs s) rest) = .ok c) :
    ∃ before after, s = before ++ rest ∧ Rewritten alloc text left.length before after (iterAtoms c) ∧
      ReadsAs alloc text after rest c := by
  obtain ⟨a, hspelled, hskip, hends⟩ := atom_split hatom
  obtain ⟨hspan, hatoms, hmap⟩ := build_leaf hbuild
  have hblank := blank_takeWhile s
  have hs : s = s.takeWhile isWs ++ (a.text ++ rest) := by rw [← hskip, blanks_skipWs]
  generalize s.takeWhile isWs = blanks at hblank hs
  have htext' : text = (left ++ blanks) ++ (a.text ++ rest) := by rw [htext, hs, List.append_assoc]
  have hplace : atomSpan c = some ⟨(left ++ blanks).length, (left ++ blanks).length + a.text.length⟩ := by
    rw [hspan, spanOf, hskip, htext']
    simp only [List.length_append, Option.some.injEq, CondSpan.mk.injEq]
    omega
  have hbuild' : tree.build (atomSpan c) = .ok c := by rw [hspan, hbuild]
  have hrewritten := Rewritten.atom alloc htext' hplace hspelled hends hbuild'
  have hsited : Sited text c a := ⟨_, _, _, htext', hplace, hspelled, hends, hbuild'⟩
  rw [List.length_append] at hrewritten
  refine ⟨blanks ++ a.text, blanks ++ (a.found alloc).text, by rw [hs, List.append_assoc], ?_, ?_⟩
  · rw [hatoms]
    exact (Rewritten.gap blanks).append hrewritten
  · intro rest' hrest' total fuel hfuel
    obtain ⟨tree', hspelled', hends', hfound⟩ := hspelled.found legal hends
    obtain ⟨c₁, hc₁, hsame₁⟩ := hfound _ _ hbuild
    obtain ⟨found, hread, hunplaced⟩ := (hspelled'.read (hends' rest' hrest')).1 total
    obtain ⟨hne, hhead⟩ := found_head alloc hspelled
    obtain ⟨d, more, ha⟩ := List.exists_cons_of_ne_nil hne
    have hws : isWs d = false := skipWs_first (hskip.trans (by rw [ha]; rfl))
    have hopen : d ≠ '(' := by
      rintro rfl
      exact hparen (more ++ rest) (hskip.trans (by rw [ha]; rfl))
    obtain ⟨more', ha'⟩ : ∃ more', (a.found alloc).text = d :: more' := by
      rw [ha] at hhead
      cases hfirst : (a.found alloc).text with
      | nil =>
        rw [hfirst] at hhead
        cases hhead
      | cons e more' =>
        rw [hfirst] at hhead
        exact ⟨more', by rw [show e = d from Option.some.inj hhead]⟩
    cases fuel with
    | zero => cases hfuel
    | succ fuel =>
      rw [ha', List.cons_append] at hread
      obtain ⟨c', hc', hsame⟩ := build_unplaced hunplaced hc₁ (spanOf total (d :: (more' ++ rest')) rest')
      refine ⟨.atom found (spanOf total (d :: (more' ++ rest')) rest'), c', ?_, ?_, ?_⟩
      · rw [List.append_assoc, operand_skip hblank, ha', List.cons_append, operand_atom hws hopen hread]
      · rw [Operand.build]
        exact hc'
      · rw [(build_leaf hc').2.2, hmap, hsited.foundIn, hsame, hsame₁]

/-- The first operand of what is built is built. -/
theorem binops_build {total : Nat} : ∀ (fuel : Nat) {start s rest : List Char} {el e : Expr} {c : Cond},
    binops total fuel start el s = some (e, rest) → e.build = .ok c → ∃ cl, el.build = .ok cl
  | fuel + 1, start, s, rest, el, e, c, h, hbuild => by
    rw [binops] at h
    split at h
    · cases h
      exact ⟨c, hbuild⟩
    · obtain ⟨⟨right, after⟩, -, h⟩ := Option.bind_eq_some_iff.mp h
      obtain ⟨cl, hcl⟩ := binops_build fuel h hbuild
      rw [Expr.build_binop] at hcl
      obtain ⟨l, hl, -⟩ := bind_eq_ok.mp hcl
      exact ⟨l, hl⟩

theorem Ends.refl (rest : List Char) : Ends rest rest := fun _ => id

theorem Ends.cons (gap : List Char) (c : Char) (rest rest' : List Char) : Ends (gap ++ c :: rest) (gap ++ c :: rest') := by
  cases gap with
  | nil => exact fun _ => id
  | cons d gap => exact fun _ => id

mutual

/-- An operand is rewritten atom by atom. -/
theorem operand_rewritten (legal : alloc.Legal) : ∀ (fuel : Nat) {left s rest : List Char} {o : Operand} {c : Cond},
    text = left ++ s → operand text.length fuel s = some (o, rest) → o.build = .ok c →
    ∃ before after, s = before ++ rest ∧ Rewritten alloc text left.length before after (iterAtoms c) ∧
      ReadsAs alloc text after rest c
  | fuel + 1, left, s, rest, o, c, htext, h, hbuild => by
    rw [operand] at h
    split at h
    · next more heq =>
      obtain ⟨⟨first, s₁⟩, hfirst, h⟩ := Option.bind_eq_some_iff.mp h
      obtain ⟨⟨inner, s₂⟩, hinner, h⟩ := Option.bind_eq_some_iff.mp h
      obtain ⟨s₃, hclose, h⟩ := Option.bind_eq_some_iff.mp h
      cases h
      rw [Operand.build_paren] at hbuild
      obtain ⟨d, hd, hc⟩ := bind_eq_ok.mp hbuild
      cases hc
      obtain ⟨cl, hcl⟩ := binops_build fuel hinner hd
      have hblank := blank_takeWhile s
      have hs : s = s.takeWhile isWs ++ '(' :: more := by rw [← heq, blanks_skipWs]
      generalize s.takeWhile isWs = blanks at hblank hs
      have htext₁ : text = left ++ (blanks ++ ['(']) ++ more := by
        rw [htext, hs]
        simp only [List.append_assoc, List.cons_append, List.nil_append]
      obtain ⟨before₁, after₁, hmore, hrewritten₁, hreads₁⟩ :=
        operand_rewritten legal fuel htext₁ hfirst (Expr.build_operand.symm.trans hcl)
      have htext₂ : text = left ++ (blanks ++ ['(']) ++ before₁ ++ s₁ := by rw [htext₁, hmore, ← List.append_assoc]
      obtain ⟨cl', atoms, before₂, after₂, hcl', hatoms, hs₁, hrewritten₂, hreads₂⟩ :=
        binops_rewritten legal fuel htext₂ hinner hd
      cases hcl.symm.trans hcl'
      obtain ⟨gap, hgap, rfl⟩ := (punct_eq_some rfl).mp hclose
      refine ⟨blanks ++ ['('] ++ (before₁ ++ (before₂ ++ (gap ++ [')']))),
        blanks ++ ['('] ++ (after₁ ++ (after₂ ++ (gap ++ [')']))), ?_, ?_, ?_⟩
      · rw [hs, hmore, hs₁]
        simp only [List.append_assoc, List.cons_append, List.nil_append]
      · have hinside : Rewritten alloc text (left ++ (blanks ++ ['('])).length (before₁ ++ (before₂ ++ (gap ++ [')'])))
            (after₁ ++ (after₂ ++ (gap ++ [')']))) (iterAtoms d) := by
          rw [hatoms, ← List.append_nil atoms]
          refine hrewritten₁.append ?_
          rw [List.length_append] at hrewritten₂
          exact hrewritten₂.append (.gap _)
        rw [List.length_append] at hinside
        exact (Rewritten.gap (blanks ++ ['('])).append hinside
      · intro rest' _ total fuel' hfuel
        cases fuel' with
        | zero => cases hfuel
        | succ fuel' =>
          have hafter : blanks ++ ['('] ++ (after₁ ++ (after₂ ++ (gap ++ [')']))) ++ rest' =
              blanks ++ '(' :: (after₁ ++ (after₂ ++ (gap ++ ')' :: rest'))) := by
            simp only [List.append_assoc, List.cons_append, List.nil_append]
          rw [hafter] at hfuel ⊢
          rw [List.length_append, List.length_cons] at hfuel
          have hlength : (after₂ ++ (gap ++ ')' :: rest')).length < fuel' := by
            have hle : (after₂ ++ (gap ++ ')' :: rest')).length ≤ (after₁ ++ (after₂ ++ (gap ++ ')' :: rest'))).length := by
              simp only [List.length_append]
              omega
            omega
          have hends : Ends s₁ (after₂ ++ (gap ++ ')' :: rest')) := by
            rw [hs₁]
            exact (Ends.cons gap ')' rest rest').append hrewritten₂.head
          have hparen : oneOf (AND ++ OR) (skipWs (gap ++ ')' :: rest')) = none := by
            rw [skipWs_head hgap rfl]
            rfl
          obtain ⟨first', c₁, hfirst', hbuild₁, hsame₁⟩ := hreads₁ _ hends total fuel' (by omega)
          obtain ⟨inner', c₂, hinner', hbuild₂, hsame₂⟩ := hreads₂ _ (Ends.cons gap ')' rest rest') hparen total fuel'
            (skipWs (after₁ ++ (after₂ ++ (gap ++ ')' :: rest')))) (.operand first') c₁ hlength
            (Expr.build_operand.trans hbuild₁) hsame₁
          refine ⟨.paren inner' (spanOf total ('(' :: (after₁ ++ (after₂ ++ (gap ++ ')' :: rest')))) rest'),
            .paren c₂ (spanOf total ('(' :: (after₁ ++ (after₂ ++ (gap ++ ')' :: rest')))) rest'), ?_, ?_, ?_⟩
          · have hclose' : punct ')' (gap ++ ')' :: rest') = some rest' := (punct_eq_some rfl).mpr ⟨gap, hgap, rfl⟩
            rw [operand_skip hblank, operand, skipWs_cons rfl]
            simp only [hfirst', hinner', hclose', Option.bind_eq_bind, Option.bind_some]
          · rw [Operand.build_paren, hbuild₂]
            rfl
          · rw [mapAtoms, mapAtoms, hsame₂]
    · next hparen =>
      obtain ⟨⟨a, after⟩, hatom, h⟩ := Option.bind_eq_some_iff.mp h
      cases h
      rw [Operand.build] at hbuild
      exact operand_atom_rewritten legal htext hatom hparen hbuild

/-- The steps after a first operand are rewritten one by one. -/
theorem binops_rewritten (legal : alloc.Legal) : ∀ (fuel : Nat) {left start s rest : List Char} {el e : Expr} {c : Cond},
    text = left ++ s → binops text.length fuel start el s = some (e, rest) → e.build = .ok c →
    ∃ cl atoms before after, el.build = .ok cl ∧ iterAtoms c = iterAtoms cl ++ atoms ∧ s = before ++ rest ∧
      Rewritten alloc text left.length before after atoms ∧
      ∀ rest', Ends rest rest' → oneOf (AND ++ OR) (skipWs rest') = none → ∀ total fuel start' el' cl',
        (after ++ rest').length < fuel → el'.build = .ok cl' → mapAtoms unspanned cl' = mapAtoms (foundIn alloc text) cl →
        ∃ e' c', binops total fuel start' el' (after ++ rest') = some (e', rest') ∧ e'.build = .ok c' ∧
          mapAtoms unspanned c' = mapAtoms (foundIn alloc text) c
  | fuel + 1, left, start, s, rest, el, e, c, htext, h, hbuild => by
    rw [binops] at h
    split at h
    · cases h
      refine ⟨c, [], [], [], hbuild, (List.append_nil _).symm, rfl, .gap [], ?_⟩
      intro rest' _ hop total fuel start' el' cl' hfuel hel hsame
      cases fuel with
      | zero => cases hfuel
      | succ fuel =>
        refine ⟨el', cl', ?_, hel, hsame⟩
        rw [List.nil_append, binops, hop]
    · next op more hop =>
      obtain ⟨⟨right, s₁⟩, hright, h⟩ := Option.bind_eq_some_iff.mp h
      obtain ⟨c₁, hc₁⟩ := binops_build fuel h hbuild
      rw [Expr.build_binop] at hc₁
      obtain ⟨cl, hcl, hc₁⟩ := bind_eq_ok.mp hc₁
      obtain ⟨cr, hcr, hc₁⟩ := bind_eq_ok.mp hc₁
      have hblank := blank_takeWhile s
      have hs : s = s.takeWhile isWs ++ (op ++ more) := by rw [← (oneOf_split hop).1, blanks_skipWs]
      generalize s.takeWhile isWs = blanks at hblank hs
      have htext₁ : text = left ++ (blanks ++ op) ++ more := by
        rw [htext, hs]
        simp only [List.append_assoc]
      obtain ⟨before₁, after₁, hmore, hrewritten₁, hreads₁⟩ := operand_rewritten legal fuel htext₁ hright hcr
      have htext₂ : text = left ++ (blanks ++ op) ++ before₁ ++ s₁ := by rw [htext₁, hmore, ← List.append_assoc]
      obtain ⟨c₂, atoms, before₂, after₂, hc₂, hatoms, hs₁, hrewritten₂, hreads₂⟩ :=
        binops_rewritten legal fuel htext₂ h hbuild
      have hcombine : c₂ = combine (isAnd (String.ofList op)) cl cr (spanOf text.length start s₁) := by
        rw [Expr.build_binop, hcl, Infra.ok_bind, hcr, Infra.ok_bind] at hc₂
        exact (pure_eq_ok.mp hc₂).symm
      refine ⟨cl, iterAtoms cr ++ atoms, blanks ++ op ++ (before₁ ++ before₂), blanks ++ op ++ (after₁ ++ after₂), hcl, ?_, ?_, ?_, ?_⟩
      · rw [hatoms, hcombine, iterAtoms_combine, List.append_assoc]
      · rw [hs, hmore, hs₁]
        simp only [List.append_assoc]
      · rw [List.length_append] at hrewritten₂
        have hinside := hrewritten₁.append hrewritten₂
        rw [List.length_append] at hinside
        exact (Rewritten.gap (blanks ++ op)).append hinside
      · intro rest' hrest' hnone total fuel' start' el' cl' hfuel hel hsame
        cases fuel' with
        | zero => cases hfuel
        | succ fuel' =>
          have hafter : blanks ++ op ++ (after₁ ++ after₂) ++ rest' = blanks ++ (op ++ (after₁ ++ (after₂ ++ rest'))) := by
            simp only [List.append_assoc]
          rw [hafter] at hfuel ⊢
          have hlength : (after₁ ++ (after₂ ++ rest')).length < fuel' ∧ (after₂ ++ rest').length < fuel' := by
            have hop' := oneOf_length (by decide) (oneOf_append operators_apart hop (after₁ ++ (after₂ ++ rest')))
            simp only [List.length_append] at hfuel hop' ⊢
            omega
          have hends : Ends s₁ (after₂ ++ rest') := by
            rw [hs₁]
            exact hrest'.append hrewritten₂.head
          have hskip : skipWs (blanks ++ (op ++ (after₁ ++ (after₂ ++ rest')))) = op ++ (after₁ ++ (after₂ ++ rest')) := by
            obtain ⟨d, op', hd⟩ := List.exists_cons_of_ne_nil (l := op) (by
              rintro rfl
              exact absurd (oneOf_length (by decide) (oneOf_append operators_apart hop [])) (lt_irrefl _))
            have hfirst : skipWs s = d :: (op' ++ more) := (oneOf_split hop).1.trans (by rw [hd]; rfl)
            rw [hd]
            exact skipWs_head hblank (skipWs_first hfirst)
          obtain ⟨right', cr', hright', hbuild', hsame'⟩ := hreads₁ _ hends total fuel' hlength.1
          have hbinop : (Expr.binop el' (String.ofList op) right' (spanOf total start' (after₂ ++ rest'))).build =
              .ok (combine (isAnd (String.ofList op)) cl' cr' (spanOf total start' (after₂ ++ rest'))) := by
            rw [Expr.build_binop, hel, Infra.ok_bind, hbuild']
            rfl
          have hmap : mapAtoms unspanned (combine (isAnd (String.ofList op)) cl' cr' (spanOf total start' (after₂ ++ rest'))) =
              mapAtoms (foundIn alloc text) c₂ := by
            rw [mapAtoms_combine leafy_unspanned, hsame, hsame', hcombine, mapAtoms_combine leafy_foundIn]
          obtain ⟨e', c', he', hc', hsame₂⟩ := hreads₂ rest' hrest' hnone total fuel' start' _ _ hlength.2 hbinop hmap
          refine ⟨e', c', ?_, hc', hsame₂⟩
          rw [binops, hskip, oneOf_append operators_apart hop]
          simp only [hright', Option.bind_eq_bind, Option.bind_some]
          exact he'

end

/-- The rewrite replaces the atoms of the text, and what it leaves is read as the tree with what was found
in each atom renamed. -/
theorem rewriteCondition_found (legal : alloc.Legal) {text : String} {c : Cond} (h : parseCondition text = .ok c) :
    ∃ edits c', List.Forall₂ (fun d e => editOf alloc text.toList d = .ok e) (iterAtoms c) edits ∧
      rewriteCondition alloc text = .ok (String.ofList (applyEdits edits text.toList)) ∧
      parseCondition (String.ofList (applyEdits edits text.toList)) = .ok c' ∧
      mapAtoms unspanned c' = mapAtoms (foundIn alloc text.toList) c ∧ ∀ d ∈ iterAtoms c, ∃ a, Sited text.toList d a := by
  have hparse := h
  unfold parseCondition at h
  split at h
  · cases h
  next e htree =>
  cases hbuild : e.build with
  | error err =>
    rw [hbuild] at h
    cases h
  | ok d =>
    rw [hbuild] at h
    obtain rfl : d = c := Except.ok.inj h
    obtain ⟨⟨first, rest⟩, hfirst, htree⟩ := Option.bind_eq_some_iff.mp htree
    obtain ⟨⟨e', rest'⟩, hbinops, htree⟩ := Option.bind_eq_some_iff.mp htree
    dsimp only at htree
    split_ifs at htree with hend
    cases htree
    obtain ⟨cl, hcl⟩ := binops_build _ hbinops hbuild
    obtain ⟨before₁, after₁, htext, hrewritten₁, hreads₁⟩ := operand_rewritten legal _ (List.nil_append _).symm hfirst
      (Expr.build_operand.symm.trans hcl)
    obtain ⟨cl', atoms, before₂, after₂, hcl', hatoms, hrest, hrewritten₂, hreads₂⟩ := binops_rewritten legal _ htext hbinops hbuild
    cases hcl.symm.trans hcl'
    have hrewritten : Rewritten alloc text.toList 0 (before₁ ++ before₂) (after₁ ++ after₂) (iterAtoms d) := by
      rw [hatoms]
      refine hrewritten₁.append ?_
      rw [List.length_nil, Nat.zero_add]
      exact hrewritten₂
    obtain ⟨edits, hcovers, hedits⟩ := hrewritten.edits
    have happly : applyEdits edits text.toList = after₁ ++ (after₂ ++ rest') := by
      have hall := hcovers.applyEdits List.length_nil rest'
      rw [List.nil_append, List.nil_append, List.append_assoc, ← hrest, ← htext, List.append_assoc] at hall
      exact hall
    have hmapM : (iterAtoms d).mapM (editOf alloc text.toList) = .ok edits := mapM_eq_ok.mpr hedits
    have hends : Ends rest (after₂ ++ rest') := by
      rw [hrest]
      exact (Ends.refl rest').append hrewritten₂.head
    have hnone : oneOf (AND ++ OR) (skipWs rest') = none := by
      rw [hend]
      rfl
    have hlength : (after₂ ++ rest').length < (after₁ ++ (after₂ ++ rest')).length + 1 := by
      simp only [List.length_append]
      omega
    obtain ⟨first', c₁, hfirst', hbuild₁, hsame₁⟩ := hreads₁ _ hends (after₁ ++ (after₂ ++ rest')).length _ (Nat.lt_succ_self _)
    obtain ⟨e', c', he', hc', hsame⟩ := hreads₂ rest' (Ends.refl rest') hnone (after₁ ++ (after₂ ++ rest')).length _
      (skipWs (after₁ ++ (after₂ ++ rest'))) (.operand first') c₁ hlength (Expr.build_operand.trans hbuild₁) hsame₁
    refine ⟨edits, c', hedits, ?_, ?_, hsame, hrewritten.sited⟩
    · rw [rewriteCondition, hparse]
      simp only [Except.mapError, Infra.ok_bind, hmapM]
      rfl
    · rw [happly, parseCondition, String.toList_ofList, treeOf, hfirst']
      simp only [Option.bind_eq_bind, Option.bind_some, he', hend, if_true, hc']
      rfl

end Reading

end Dsl41.Minify
