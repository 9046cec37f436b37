import Dsl41.Jil.Grammar
import Dsl41.Jil.Pairs

/-!
# The elements of a file

Comments on their own lines, attributes with their continuation lines, statements with their date
rows. Each element is defined by the lines it is scanned from, and the preserve mode writes those
lines back.
-/

namespace Dsl41.Jil

open Dsl41.Infra

/-! ## Lines -/

/-- Lines of whitespace only. -/
def BlankLines (ls : List Line) : Prop := ∀ l ∈ ls, l.all isSpace = true

/-- A line that is neither blank, nor a comment, nor key-shaped. -/
structure OtherLine (line : Line) : Prop where
  notBlank : line.all isSpace = false
  notHash : ¬ ['#'] <+: line.dropWhile isBlank
  notComment : ¬ opener <+: line.dropWhile isBlank
  notKey : keyOf (line.dropWhile isBlank) = none

/-! ## Comments -/

/-- A comment on its own lines. -/
inductive OwnComment : Comment → Prop
  | hash {indent text : Line} {preBlankLines : List Line} :
      indent.all isBlank = true → BlankLines preBlankLines →
      OwnComment { text := ⟨'#' :: text, []⟩, attachment := .leading, preBlankLines, indent }
  | block {indent post : Line} {text : Block} {preBlankLines : List Line} :
      indent.all isBlank = true → BlankLines preBlankLines → IsRegion closer 2 text →
      opener <+: text.first → post.all isSpace = true →
      OwnComment { text, attachment := .leading, preBlankLines, indent, post }

theorem OwnComment.leading {c : Comment} (h : OwnComment c) : c.attachment = .leading := by
  cases h with
  | hash => rfl
  | block => rfl

theorem Trailing.trailing {inQuote atStart block opens : Bool} {v : Line} {tc : Comment}
    (h : Trailing inQuote atStart block v (some tc) opens) :
    tc.attachment = .trailing ∧ tc.preBlankLines = [] ∧ (opens = true → tc.trailingBlock = true) := by
  cases h with
  | closed => exact ⟨rfl, rfl, nofun⟩
  | opens => exact ⟨rfl, rfl, fun _ => rfl⟩

/-! ## Attributes -/

/-- An attribute, with the quote parity of its value while a next line may continue it. -/
inductive ScannedAttr : RawAttr → Option Bool → Prop
  | line {key indent sep : Line} {preBlankLines : List Line} {leads : List Comment}
      {p : ValueParts} :
      IsKey key → lower key ∉ subcommands → subcommandShaped key = false →
      p.Valid (startsBlob key p.block.first) → NoGap p.block.first →
      findInlinePair (maskClosedBlocks p.tail false (!startsBlob key p.block.first)) = none →
      indent.all isBlank = true → sep.all isBlank = true → BlankLines preBlankLines →
      (∀ c ∈ leads, OwnComment c) →
      ScannedAttr
        { key, rawValue := p.value, comments := leads ++ p.trailing.toList, preBlankLines, indent
          sep, literalPrefixLines := p.literal.rest.length }
        (contOf key (p.toLine (startsBlob key p.block.first)))
  | continued {a : RawAttr} {inQuote : Bool} {line : Line} :
      ScannedAttr a (some inQuote) → OtherLine line →
      (splitTrailingComment line inQuote).opensComment = false →
      findInlinePair (maskClosedBlocks line inQuote) inQuote = none →
      ScannedAttr { a with rawValue := a.rawValue.addLine line }
        (some (inQuote ^^ oddQuotes (maskClosedBlocks line inQuote)))
  | commented {a : RawAttr} {inQuote : Bool} {v : Line} {tc : Comment} :
      ScannedAttr a (some inQuote) → OtherLine (v ++ tc.textLines.first) →
      Trailing inQuote true true v (some tc) true →
      findInlinePair (maskClosedBlocks (v ++ tc.indent) inQuote) inQuote = none →
      ScannedAttr
        { a with rawValue := a.rawValue.addLine v, comments := a.comments ++ [tc] } none

/-! ## Statements -/

/-- A statement, with what its last attribute leaves open. -/
inductive ScannedStatement : JilStatement → Option Bool → Prop
  | header {key indent sep v : Line} {preBlankLines : List Line} {leads : List Comment}
      {trailing : Option Comment} {opens : Bool} {header : Header} :
      IsKey key → lower key ∈ subcommands → Trailing false true false v trailing opens →
      scanHeader 0 v = .ok header → NoGap (withTrailing ⟨v, []⟩ trailing).first →
      indent.all isBlank = true → sep.all isBlank = true → BlankLines preBlankLines →
      (∀ c ∈ leads, OwnComment c) →
      ScannedStatement
        { subcommand := key, subject := header.subject, jobTypeInline := header.jobTypeInline
          attrs := [], comments := leads ++ trailing.toList, preBlankLines, indent, sep
          inlineGap := header.inlineGap, inlineKey := header.inlineKey
          inlineSep := header.inlineSep } none
  | attr {stmt : JilStatement} {cont cont' : Option Bool} {a : RawAttr} :
      ScannedStatement stmt cont → stmt.dateLines = [] → ScannedAttr a cont' →
      ScannedStatement { stmt with attrs := stmt.attrs ++ [a] } cont'
  | dateRow {stmt : JilStatement} {line : Line} :
      ScannedStatement stmt none → lower stmt.subcommand ∈ dateBodySubcommands → OtherLine line →
      ScannedStatement { stmt with dateLines := stmt.dateLines ++ [line] } none

/-! ## Files -/

/-- A file whose elements are as scanned. -/
structure ScannedFile (jf : JilFile) : Prop where
  statements : ∀ stmt ∈ jf.statements, ∃ cont, ScannedStatement stmt cont
  trailingComments : ∀ c ∈ jf.trailingComments, OwnComment { c with attachment := .leading } ∧
    c.attachment = .floating
  eofBlankLines : BlankLines jf.eofBlankLines

/-! ## The lines of an element -/

section Preserve

variable {leads comments : List Comment} {c : Comment} {l : Line}

theorem ownLine_leads (hl : ∀ c ∈ leads, OwnComment c) : ownLine leads = leads := by
  refine List.filter_eq_self.mpr fun c hc => ?_
  rw [(hl c hc).leading]
  rfl

theorem trailingPair_leads (hl : ∀ c ∈ leads, OwnComment c) :
    trailingPair (leads ++ comments) = trailingPair comments := by
  have hnone : leads.filter (·.attachment = .trailing) = [] := by
    refine List.filter_eq_nil_iff.mpr fun c hc => ?_
    rw [(hl c hc).leading]
    decide
  simp only [trailingPair, List.filter_append, hnone, List.nil_append]

theorem ownLine_append (h : ∀ c ∈ comments, c.attachment = .trailing) :
    ownLine (leads ++ comments) = ownLine leads := by
  have hnone : comments.filter (·.attachment ≠ .trailing) = [] :=
    List.filter_eq_nil_iff.mpr fun c hc => by simp [h c hc]
  rw [ownLine, List.filter_append, hnone, List.append_nil]
  rfl

variable {p : ValueParts} {isBlob : Bool}

/-- A value is written back with its trailing comment where it stood. -/
theorem emitWithTrailing_valid (hp : p.Valid isBlob) (hl : ∀ c ∈ leads, OwnComment c) :
    emitWithTrailing (l ++ p.value.first) p.value.rest (leads ++ p.trailing.toList) =
      (p.block.prepend l).lines := by
  rw [emitWithTrailing, trailingPair_leads hl]
  obtain ⟨literal, tail, trailing, opens⟩ := p
  obtain ⟨hliteral, htrailing⟩ := hp
  dsimp only at htrailing
  -- a block comment rides the last line, as `append` puts it
  have hride : ∀ (b : Block) (tc : Comment),
      (Block.append ⟨l ++ b.first, b.rest⟩ tc.textLines).lines =
        ((b.append tc.textLines).prepend l).lines :=
    fun b tc => congrArg Block.lines Block.prepend_append.symm
  cases htrailing with
  | none => rfl
  | opens => exact hride _ _
  | closed =>
    cases isBlob with
    | true => exact hride _ _
    | false =>
      have hempty : literal = ⟨[], []⟩ := hliteral
      subst hempty
      simp [trailingPair, ValueParts.block, withTrailing, ValueParts.value, Comment.textLines,
        Block.prepend, Block.lines]

/-- A key line is written back with its comments before it. -/
theorem preserveAttr_line {key indent sep : Line} {preBlankLines : List Line} {n : Nat}
    (hp : p.Valid isBlob) (hl : ∀ c ∈ leads, OwnComment c) :
    preserveAttr { key, rawValue := p.value, comments := leads ++ p.trailing.toList, preBlankLines
                   indent, sep, literalPrefixLines := n } =
      leads.flatMap emitFullLine ++ preBlankLines ++
        (p.block.prepend (indent ++ key ++ [':'] ++ sep)).lines := by
  have hown : ownLine (leads ++ p.trailing.toList) = leads := by
    rw [ownLine_append, ownLine_leads hl]
    intro c hc
    rw [Option.mem_toList] at hc
    have htrailing := hp.2
    rw [Option.mem_def.mp hc] at htrailing
    exact htrailing.trailing.1
  simp only [preserveAttr, hown, emitWithTrailing_valid hp hl]

/-- The comments of an attribute that may be continued hold no block comment. -/
theorem ScannedAttr.no_block {a : RawAttr} {cont : Option Bool} (h : ScannedAttr a cont)
    (hc : cont ≠ none) : (trailingPair a.comments).2 = none := by
  induction h with
  | @line key indent sep preBlankLines leads p hkey _ _ hp _ _ _ _ _ hl =>
    rw [trailingPair_leads hl]
    have hopens : p.opens = false := by
      by_contra hopens
      rw [Bool.not_eq_false] at hopens
      exact hc (by simp [contOf, ValueParts.toLine, hopens])
    have hblob : startsBlob key p.block.first = false := by
      by_contra hblob
      rw [Bool.not_eq_false, startsBlob, Bool.and_eq_true, decide_eq_true_eq] at hblob
      have : lower key ∉ continuationAttrs := by
        rw [hblob.1]
        decide
      exact hc (by simp [contOf, this])
    rw [hblob] at hp
    obtain ⟨-, htrailing⟩ := hp
    obtain ⟨literal, tail, trailing, opens⟩ := p
    dsimp only at htrailing hopens
    subst hopens
    cases htrailing with
    | none => rfl
    | closed => rfl
  | continued _ _ _ _ ih => exact ih (by simp)
  | commented => exact absurd rfl hc

/-- A continuation line is written after what the attribute had. -/
theorem preserveAttr_addLine {a : RawAttr} (h : (trailingPair a.comments).2 = none) :
    preserveAttr { a with rawValue := a.rawValue.addLine l } = preserveAttr a ++ [l] := by
  simp only [preserveAttr, emitWithTrailing, h, Block.addLine, List.append_assoc, List.cons_append]

theorem trailingPair_append_block {tc : Comment} (h : tc.attachment = .trailing)
    (hb : tc.trailingBlock = true) :
    trailingPair (comments ++ [tc]) = ((trailingPair comments).1, some tc) := by
  simp [trailingPair, List.filter_append, h, hb]

/-- So is a continuation line that opens a comment, with the comment. -/
theorem preserveAttr_addComment {a : RawAttr} {tc : Comment}
    (h : (trailingPair a.comments).2 = none) (htc : tc.attachment = .trailing)
    (hb : tc.trailingBlock = true) :
    preserveAttr { a with rawValue := a.rawValue.addLine l, comments := a.comments ++ [tc] } =
      preserveAttr a ++ (withTrailing ⟨l, []⟩ (some tc)).lines := by
  have hown : ownLine (a.comments ++ [tc]) = ownLine a.comments :=
    ownLine_append fun c hc => by rw [List.mem_singleton.mp hc, htc]
  simp only [preserveAttr, emitWithTrailing, hown, trailingPair_append_block htc hb, h,
    Block.addLine]
  rw [Block.append_concat]
  simp [withTrailing, Block.lines]

end Preserve

end Dsl41.Jil
