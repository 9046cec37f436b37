import Dsl41.Jil.CanonicalFile
import Dsl41.Jil.Complete

/-!
# The canonical text

The canonical mode writes no character that the preserve mode does not, but for spaces, so its lines
hold no line end and its text is parsed to the canonical file.
-/

namespace Dsl41.Jil

open Dsl41.Infra

variable {style : NewlineStyle} {text : List Char} {piece : Line} {c : Char} {b : Block} {l t : Line}
  {stmt : JilStatement} {jf : JilFile}

/-! ## The lines of a text -/

theorem noEol_reverse_cons (h : NoEol piece.reverse) (hc : isEol c = false) :
    NoEol (c :: piece).reverse := by
  rw [isEol, Bool.or_eq_false_iff, decide_eq_false_iff_not, decide_eq_false_iff_not] at hc
  rw [List.reverse_cons]
  simp only [NoEol, List.mem_append, List.mem_singleton, not_or]
  exact ⟨⟨h.1, Ne.symm hc.2⟩, h.2, Ne.symm hc.1⟩

theorem noEol_nil : NoEol ([] : Line).reverse := ⟨List.not_mem_nil, List.not_mem_nil⟩

theorem crlf_pieces_noEol (h : (replaceCrlf text).any isEol = false) (hp : NoEol piece.reverse) :
    ∀ l ∈ Infra.splitFrom NewlineStyle.crlf.chars 0 piece text, NoEol l := by
  induction text using replaceCrlf.induct generalizing piece with
  | case1 rest ih =>
    rw [replaceCrlf, List.any_cons, Bool.or_eq_false_iff] at h
    intro l hl
    rcases List.mem_cons.mp hl with rfl | hl
    · exact hp
    · exact ih h.2 noEol_nil l hl
  | case2 c rest hne ih =>
    rw [replaceCrlf, List.any_cons, Bool.or_eq_false_iff] at h
    · have hprefix : NewlineStyle.crlf.chars.isPrefixOf (c :: rest) = false := by
        have hc : '\r' ≠ c := by
          rintro rfl
          exact absurd h.1 (by decide)
        change ('\r' == c && _) = false
        rw [beq_false_of_ne hc, Bool.false_and]
      rw [Infra.splitFrom, hprefix]
      exact ih h.2 (noEol_reverse_cons hp h.1)
    · exact hne
  | case3 =>
    intro l hl
    rw [List.mem_singleton.mp hl]
    exact hp

theorem lf_pieces_noEol (h : '\r' ∉ text) (hp : NoEol piece.reverse) :
    ∀ l ∈ Infra.splitFrom NewlineStyle.lf.chars 0 piece text, NoEol l := by
  induction text generalizing piece with
  | nil =>
    intro l hl
    rw [List.mem_singleton.mp hl]
    exact hp
  | cons c rest ih =>
    rw [List.mem_cons, not_or] at h
    by_cases hc : c = '\n'
    · subst hc
      intro l hl
      rcases List.mem_cons.mp hl with rfl | hl
      · exact hp
      · exact ih h.2 noEol_nil l hl
    · have hprefix : NewlineStyle.lf.chars.isPrefixOf (c :: rest) = false := by
        change ('\n' == c && _) = false
        rw [beq_false_of_ne (Ne.symm hc), Bool.false_and]
      rw [Infra.splitFrom, hprefix]
      exact ih h.2 (noEol_reverse_cons hp (by simp [isEol, hc, Ne.symm h.1]))

/-- The lines of a text hold no line end. -/
theorem linesOf_noEol (h : detectNewline text = .ok style) : ∀ l ∈ linesOf style text, NoEol l := by
  have hsplit : ∀ l ∈ split style.chars text, NoEol l := by
    rw [detectNewline] at h
    split at h
    · dsimp only at h
      split at h
      · cases h
      · next hany =>
        cases h
        exact crlf_pieces_noEol (by simpa using hany) noEol_nil
    · split at h
      · cases h
      · next hcr =>
        cases h
        exact lf_pieces_noEol hcr noEol_nil
  intro l hl
  rw [linesOf] at hl
  split at hl
  · cases hl
  · split at hl
    · exact hsplit l ((List.dropLast_sublist _).mem hl)
    · exact hsplit l hl

/-! ## The characters of a block -/

theorem flatten_prepend : (b.prepend l).lines.flatten = l ++ b.lines.flatten := by
  simp [Block.prepend, Block.lines]

theorem flatten_appendLast : (b.appendLast t).lines.flatten = b.lines.flatten ++ t := by
  obtain ⟨first, rfl⟩ | ⟨first, before, l, rfl⟩ := b.cases_last
  · simp [Block.lines]
  · simp [Block.lines]

theorem flatten_append {b' : Block} :
    (b.append b').lines.flatten = b.lines.flatten ++ b'.lines.flatten := by
  rw [Block.lines_append, List.flatten_append, flatten_appendLast]
  simp [Block.lines]

theorem mem_rstrip (h : c ∈ rstrip l) : c ∈ l := rstrip_begins.mem h

theorem mem_map_rstrip {lines : List Line} (h : c ∈ (lines.map rstrip).flatten) :
    c ∈ lines.flatten := by
  obtain ⟨l, hl, hc⟩ := List.mem_flatten.mp h
  obtain ⟨l', hl', rfl⟩ := List.mem_map.mp hl
  exact List.mem_flatten.mpr ⟨l', hl', mem_rstrip hc⟩

/-- The characters of a comment on its lines. -/
theorem flatten_textLines {tc : Comment} :
    tc.textLines.lines.flatten = tc.indent ++ (tc.text.lines.flatten ++ tc.post) := by
  rw [Comment.textLines, flatten_prepend, flatten_appendLast]

/-! ## The characters of an element -/

section Element

variable {comments : List Comment} {first : Line} {rest : List Line} {a : RawAttr}

/-- The characters that a value's trailing comments add. -/
def trailingChars (comments : List Comment) : List Char :=
  (trailingPair comments).1.elim [] (·.textLines.first) ++
    (trailingPair comments).2.elim [] (·.textLines.lines.flatten)

theorem mem_emitWithTrailing : c ∈ (emitWithTrailing first rest comments).flatten ↔
    c ∈ first ∨ c ∈ rest.flatten ∨ c ∈ trailingChars comments := by
  rw [emitWithTrailing, trailingChars]
  obtain ⟨inlineTc, blockTc⟩ := trailingPair comments
  cases inlineTc with
  | none =>
    cases blockTc with
    | none => simp
    | some tc =>
      simp only [flatten_append]
      simp [Block.lines]
  | some tc =>
    cases blockTc with
    | none => simp [or_comm]
    | some tc' =>
      simp only [flatten_append]
      simp [Block.lines, or_left_comm]

/-- What is written before the block comment. -/
theorem mem_withInline {inlineTc : Option Comment} (h : c ∈ (match inlineTc with
      | some tc => first ++ [' '] ++ rstrip tc.text.first
      | none => first)) : c = ' ' ∨ c ∈ first ∨ c ∈ inlineTc.elim [] (·.textLines.first) := by
  cases inlineTc with
  | none => exact .inr (.inl h)
  | some tc =>
    rw [List.mem_append, List.mem_append, List.mem_singleton] at h
    rcases h with (h | h) | h
    · exact .inr (.inl h)
    · exact .inl h
    · obtain ⟨t, ht⟩ := tc.text.first_appendLast_cons (t := tc.post)
      exact .inr (.inr (by simp [Comment.textLines, Block.prepend, ht, mem_rstrip h]))

theorem mem_canonicalWithTrailing (h : c ∈ (canonicalWithTrailing first rest comments).flatten) :
    c = ' ' ∨ c ∈ first ∨ c ∈ rest.flatten ∨ c ∈ trailingChars comments := by
  rw [canonicalWithTrailing] at h
  rw [trailingChars]
  generalize trailingPair comments = pair at h ⊢
  obtain ⟨inlineTc, blockTc⟩ := pair
  have hlines : ∀ tc : Comment, c ∈ ((tc.text.map rstrip).prepend [' ']).lines.flatten →
      c = ' ' ∨ c ∈ tc.textLines.lines.flatten := by
    intro tc hc
    rw [flatten_prepend, List.mem_append, List.mem_singleton] at hc
    refine hc.imp id fun hc => ?_
    rw [flatten_textLines, List.mem_append, List.mem_append]
    exact .inr (.inl (mem_map_rstrip hc))
  cases blockTc with
  | none =>
    dsimp only at h
    rw [List.flatten_cons, List.mem_append] at h
    rcases h with h | h
    · have := mem_withInline h
      simp only [List.mem_append]
      tauto
    · exact .inr (.inr (.inl h))
  | some tc =>
    dsimp only at h
    rw [flatten_append, List.mem_append, Block.lines, List.flatten_cons, List.mem_append] at h
    simp only [List.mem_append]
    rcases h with (h | h) | h
    · have := mem_withInline h
      tauto
    · exact .inr (.inr (.inl h))
    · have := hlines tc h
      tauto

theorem mem_emitCanonicalComments (h : c ∈ (emitCanonicalComments comments).flatten) :
    c ∈ ((ownLine comments).flatMap emitFullLine).flatten := by
  obtain ⟨l, hl, hc⟩ := List.mem_flatten.mp h
  obtain ⟨d, hd, hl⟩ := List.mem_flatMap.mp hl
  have hmem : c ∈ (emitFullLine d).flatten := by
    rw [emitFullLine, List.flatten_append, flatten_textLines]
    have hc := mem_map_rstrip (List.mem_flatten_of_mem hl hc)
    simp only [List.mem_append]
    tauto
  obtain ⟨l', hl', hc'⟩ := List.mem_flatten.mp hmem
  exact List.mem_flatten.mpr ⟨l', List.mem_flatMap.mpr ⟨d, hd, hl'⟩, hc'⟩

theorem mem_keyValue {key v : Line} (h : c ∈ keyValue key v) :
    c = ' ' ∨ c = ':' ∨ c ∈ key ∨ c ∈ v := by
  rw [keyValue] at h
  split at h
  · simp only [List.mem_append, List.mem_singleton] at h
    tauto
  · simp only [List.mem_append, List.mem_cons, List.not_mem_nil, or_false] at h
    tauto

theorem mem_canonicalAttr (h : c ∈ (canonicalAttr a).flatten) :
    c = ' ' ∨ c ∈ (preserveAttr a).flatten := by
  have hvalue : c ∈ (canonicalValue a).lines.flatten → c ∈ a.rawValue.lines.flatten := by
    intro hc
    obtain ⟨l, hl, hc⟩ := List.mem_flatten.mp hc
    have hline : ∀ (l : Line) n, c ∈ (if n < a.literalPrefixLines then l else rstrip l) → c ∈ l := by
      intro l n hc
      split at hc
      · exact hc
      · exact mem_rstrip hc
    rcases List.mem_cons.mp hl with rfl | hl
    · exact List.mem_flatten.mpr ⟨_, List.mem_cons_self, hline _ _ hc⟩
    · obtain ⟨⟨l', n⟩, hl', rfl⟩ := List.mem_map.mp hl
      exact List.mem_flatten.mpr ⟨l', List.mem_cons_of_mem _ (List.fst_mem_of_mem_zipIdx hl'),
        hline _ _ hc⟩
  rw [preserveAttr, List.flatten_append, List.flatten_append, List.mem_append, List.mem_append,
    mem_emitWithTrailing]
  rw [canonicalAttr, List.flatten_append, List.mem_append] at h
  rcases h with h | h
  · exact .inr (.inl (.inl (mem_emitCanonicalComments h)))
  · rw [Block.lines, List.flatten_cons, List.mem_append, Block.lines, List.flatten_cons,
      List.mem_append] at hvalue
    simp only [List.mem_append, List.mem_singleton]
    rcases mem_canonicalWithTrailing h with h | h | h | h
    · exact .inl h
    · have := mem_keyValue h
      tauto
    · tauto
    · tauto

theorem mem_canonicalSubject (h : c ∈ canonicalSubject stmt) : c = ' ' ∨ c ∈ stmt.subject := by
  rw [canonicalSubject] at h
  split at h
  · dsimp only at h
    split at h
    · have hparts := splits_split stmt.subject false true
      dsimp only at hparts
      rw [← hparts]
      simp only [List.mem_append, List.mem_singleton] at h ⊢
      tauto
    · exact .inr (mem_rstrip h)
  · exact .inr (mem_rstrip h)

theorem mem_strip (h : c ∈ strip l) : c ∈ l :=
  (List.dropWhile_sublist _).mem (mem_rstrip h)

/-- The canonical mode writes no character of its own but for spaces. -/
theorem mem_canonicalStatement (h : c ∈ (canonicalStatement stmt).flatten) :
    c = ' ' ∨ c ∈ (preserveStatement stmt).flatten := by
  have hheader : c = ':' ∨ c ∈ stmt.subcommand ∨ c ∈ stmt.subject → c ∈ preserveHeader stmt := by
    rintro (hc | hc | hc) <;> simp [preserveHeader, hc]
  have hinline : ∀ a ∈ inlineAttr stmt, c ∈ (preserveAttr a).flatten →
      c = ' ' ∨ c ∈ preserveHeader stmt := by
    intro a ha hc
    rw [inlineAttr, Option.mem_def, Option.map_eq_some_iff] at ha
    obtain ⟨jobType, hjob, rfl⟩ := ha
    rw [preserveHeader, hjob]
    simp [preserveAttr, ownLine, emitWithTrailing, trailingPair] at hc ⊢
    tauto
  rw [preserveStatement]
  simp only [List.flatten_append, List.mem_append, mem_emitWithTrailing]
  rw [canonicalStatement] at h
  simp only [List.flatten_append, List.mem_append] at h
  rcases h with ((h | h) | h) | h
  · exact .inr (.inl (.inl (.inl (.inl (mem_emitCanonicalComments h)))))
  · rcases mem_canonicalWithTrailing h with h | h | h | h
    · exact .inl h
    · rcases mem_keyValue h with h | h | h | h
      · exact .inl h
      · have := hheader (.inl h)
        tauto
      · have := hheader (.inr (.inl h))
        tauto
      · rcases mem_canonicalSubject h with h | h
        · exact .inl h
        · have := hheader (.inr (.inr h))
          tauto
    · cases h
    · tauto
  · obtain ⟨l, hl, hc⟩ := List.mem_flatten.mp h
    obtain ⟨a, ha, hl⟩ := List.mem_flatMap.mp hl
    have hattr := mem_canonicalAttr (List.mem_flatten_of_mem hl hc)
    have ha : a ∈ (inlineAttr stmt).toList ++ stmt.attrs := canonicalSort_perm.mem_iff.mp ha
    rcases hattr with hspace | hattr
    · exact .inl hspace
    · rcases List.mem_append.mp ha with ha | ha
      · have := hinline a (Option.mem_toList.mp ha) hattr
        tauto
      · obtain ⟨l', hl', hc'⟩ := List.mem_flatten.mp hattr
        have : c ∈ (stmt.attrs.flatMap preserveAttr).flatten :=
          List.mem_flatten.mpr ⟨l', List.mem_flatMap.mpr ⟨a, ha, hl'⟩, hc'⟩
        tauto
  · obtain ⟨l, hl, hc⟩ := List.mem_flatten.mp h
    obtain ⟨row, hrow, rfl⟩ := List.mem_map.mp hl
    have : c ∈ stmt.dateLines.flatten := List.mem_flatten.mpr ⟨row, hrow, mem_strip hc⟩
    tauto

end Element

/-! ## Files -/

theorem noEol_iff {lines : List Line} :
    (∀ l ∈ lines, NoEol l) ↔ ∀ c ∈ lines.flatten, c ≠ '\n' ∧ c ≠ '\r' := by
  constructor
  · intro h c hc
    obtain ⟨l, hl, hc⟩ := List.mem_flatten.mp hc
    exact ⟨fun heq => (h l hl).1 (heq ▸ hc), fun heq => (h l hl).2 (heq ▸ hc)⟩
  · intro h l hl
    exact ⟨fun hc => (h _ (List.mem_flatten_of_mem hl hc)).1 rfl,
      fun hc => (h _ (List.mem_flatten_of_mem hl hc)).2 rfl⟩

theorem mem_spaced {blocks : List (List Line)} (h : l ∈ spaced blocks) :
    l = [] ∨ ∃ block ∈ blocks, l ∈ block := by
  cases blocks with
  | nil => cases h
  | cons block blocks =>
    rcases List.mem_append.mp h with h | h
    · exact .inr ⟨block, List.mem_cons_self, h⟩
    · obtain ⟨b, hb, h⟩ := List.mem_flatMap.mp h
      rcases List.mem_cons.mp h with h | h
      · exact .inl h
      · exact .inr ⟨b, List.mem_cons_of_mem _ hb, h⟩

/-- The canonical lines of a file whose lines hold no line end hold none. -/
theorem canonicalBlocks_noEol (hown : ownLine jf.trailingComments = jf.trailingComments)
    (h : ∀ l ∈ preserveLines jf, NoEol l) : ∀ l ∈ spaced (canonicalBlocks jf), NoEol l := by
  rw [noEol_iff] at h
  have hblock : ∀ block ∈ canonicalBlocks jf, ∀ c ∈ block.flatten, c ≠ '\n' ∧ c ≠ '\r' := by
    intro block hb c hc
    rcases List.mem_append.mp hb with hb | hb
    · obtain ⟨stmt, hs, rfl⟩ := List.mem_map.mp hb
      rcases mem_canonicalStatement hc with rfl | hc
      · decide
      · refine h c ?_
        obtain ⟨l, hl, hc⟩ := List.mem_flatten.mp hc
        rw [preserveLines, List.append_assoc]
        exact List.mem_flatten.mpr
          ⟨l, List.mem_append_left _ (List.mem_flatMap.mpr ⟨stmt, hs, hl⟩), hc⟩
    · split at hb
      · cases hb
      · rw [List.mem_singleton.mp hb] at hc
        have hc := mem_emitCanonicalComments hc
        rw [hown] at hc
        refine h c ?_
        rw [preserveLines]
        simp only [List.flatten_append, List.mem_append]
        exact .inl (.inr hc)
  intro l hl
  rcases mem_spaced hl with rfl | ⟨block, hb, hl⟩
  · exact noEol_nil
  · exact noEol_iff.mpr (hblock block hb) l hl

/-- The canonical text of a clean file is parsed to its canonical file. -/
theorem parse_renderCanonical {text : List Char} (h : parse text = .ok jf)
    (hclean : ∀ stmt ∈ jf.statements, CleanStatement stmt) :
    ∃ g, parse (renderCanonical jf) = .ok g ∧ CanonicalFile jf g := by
  have hscanned := scannedFile_of_parse h
  have hfloating : ∀ c ∈ jf.trailingComments, c.attachment = .floating :=
    fun c hc => (hscanned.trailingComments c hc).2
  have hown : ownLine jf.trailingComments = jf.trailingComments :=
    List.filter_eq_self.mpr fun c hc => by rw [hfloating c hc]; rfl
  have hlines : ∀ l ∈ preserveLines jf, NoEol l := by
    obtain ⟨style, s, hstyle, hs, rfl⟩ := parse_eq_ok.mp h
    obtain ⟨-, hlines⟩ := scanLines_sound scanInv_nil hs (Nat.zero_le _)
    rw [preserveLines_file, hlines]
    exact linesOf_noEol hstyle
  obtain ⟨g, hg⟩ := hscanned.canonicalFile hclean
  have hparse := parse_renderPreserve hg.scanned hg.newlineStyle hg.finalNewline
    (hg.lines ▸ canonicalBlocks_noEol hown hlines)
  refine ⟨g, ?_, hg⟩
  rw [← hparse, renderCanonical_eq hfloating, renderPreserve, hg.lines, hg.newlineStyle,
    hg.finalNewline, hg.lines]
  by_cases hempty : canonicalBlocks jf = []
  · rw [if_pos hempty, if_pos ((spaced_eq_nil hfloating).mpr hempty)]
  · have hspaced := mt (spaced_eq_nil hfloating).mp hempty
    rw [if_neg hempty, if_neg hspaced, decide_eq_true hspaced, if_pos rfl]
    rfl

end Dsl41.Jil
