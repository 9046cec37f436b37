import Dsl41.Infra.Result
import Dsl41.Jil.Regions

/-!
# The grammar of a file

What the scanner reads, without its state: which lines are a comment on its own, an attribute
with its continuation, a statement with its date rows. The layout fields are part of the tree, so
an element says which lines it stands for. The scanner is proved to accept exactly this.
-/

namespace Dsl41.Jil

open Dsl41.Infra

variable {i k n : Nat} {indent body gap post v line key candidate : Line} {rest : List Line}
  {c : Comment}

/-! ## Trailing comments -/

/-- The parts of a body that splits at its trailing comment. -/
def Splits (inQuote atStart : Bool) (v gap commentText post : Line) (opens : Bool) : Prop :=
  splitTrailingComment (v ++ gap ++ commentText ++ post) inQuote atStart =
    ⟨v, gap, commentText, post, opens⟩

/-- What a walk returns: no comment, or the split at a marker. -/
inductive SplitResult (l : Line) : TrailingSplit → Prop
  | none : SplitResult l { value := l }
  | closed {before through post : Line} : l = before ++ (opener ++ through) ++ post →
      cut closer through = some (through, []) → post.all isSpace = true →
      SplitResult l (splitAt before (opener ++ through) post false)
  | opens {before tail : Line} : l = before ++ (opener ++ tail) → cut closer tail = none →
      SplitResult l (splitAt before (opener ++ tail) [] true)

theorem splitFrom_result (skip : Nat) (inQuote opens : Bool) (seen l : Line) :
    SplitResult (seen ++ l) (splitFrom skip inQuote opens seen l) := by
  induction l generalizing skip inQuote opens seen with
  | nil =>
    rw [List.append_nil]
    exact .none
  | cons c rest ih =>
    have hnext : ∀ skip inQuote opens,
        SplitResult (seen ++ c :: rest) (splitFrom skip inQuote opens (seen ++ [c]) rest) := by
      intro skip inQuote opens
      have h := ih skip inQuote opens (seen ++ [c])
      rwa [List.append_assoc, List.singleton_append] at h
    cases skip with
    | succ skip => exact hnext _ _ _
    | zero =>
      rw [splitFrom]
      split
      · exact hnext _ _ _
      · split
        · next hm =>
          have hp : opener <+: c :: rest := by
            rw [Bool.and_eq_true] at hm
            exact List.isPrefixOf_iff_prefix.mp hm.2
          obtain ⟨tail, htail⟩ := hp
          obtain ⟨hc, hrest⟩ := List.cons.inj htail
          have hdrop : rest.drop 1 = tail := by rw [← hrest]; rfl
          rw [hdrop, ← htail]
          cases hcut : cut closer tail with
          | none => exact .opens rfl hcut
          | some p =>
            obtain ⟨through, after⟩ := p
            dsimp only
            split
            · next hafter =>
              have h := cut_through (by decide) hcut []
              rw [List.append_nil] at h
              refine .closed ?_ h hafter
              rw [List.append_assoc, List.append_assoc, (cut_eq_some hcut).1]
            · rw [htail]
              exact hnext _ _ _
        · exact hnext _ _ _

/-- The parts of a split are the body's, in order. -/
theorem splits_split (body : Line) (inQuote atStart : Bool) :
    let r := splitTrailingComment body inQuote atStart
    r.value ++ r.gap ++ r.commentText ++ r.post = body := by
  have h := splitFrom_result 0 inQuote atStart [] body
  rw [List.nil_append] at h
  change SplitResult body (splitTrailingComment body inQuote atStart) at h
  cases hr : splitTrailingComment body inQuote atStart with
  | mk value gap commentText post opens =>
    rw [hr] at h
    cases h with
    | none => simp
    | closed hl => simp [hl, List.rdropWhile_append_rtakeWhile]
    | opens hl => simp [hl, List.rdropWhile_append_rtakeWhile]

theorem splits_result (body : Line) (inQuote atStart : Bool) :
    SplitResult body (splitTrailingComment body inQuote atStart) :=
  splitFrom_result 0 inQuote atStart [] body

section Splits

variable {inQuote atStart : Bool} {v gap commentText post : Line}

theorem splits_of_eq {body : Line} {r : TrailingSplit}
    (h : splitTrailingComment body inQuote atStart = r) :
    Splits inQuote atStart r.value r.gap r.commentText r.post r.opensComment ∧
      r.value ++ r.gap ++ r.commentText ++ r.post = body := by
  have hparts := splits_split body inQuote atStart
  dsimp only at hparts
  rw [h] at hparts
  exact ⟨by rw [Splits, hparts, h], hparts⟩

/-- The comment a split opens has no closer on its line. -/
theorem Splits.opens (h : Splits inQuote atStart v gap commentText post true) :
    post = [] ∧ ∃ tail, commentText = opener ++ tail ∧ cut closer tail = none := by
  have hr := splits_result (v ++ gap ++ commentText ++ post) inQuote atStart
  rw [Splits] at h
  rw [h] at hr
  generalize hl : v ++ gap ++ commentText ++ post = l at hr
  cases hr with
  | opens _ hcut => exact ⟨rfl, _, rfl, hcut⟩

/-- The comment a split has closed ends with its first closer. -/
theorem Splits.closed (h : Splits inQuote atStart v gap commentText post false)
    (hne : commentText ≠ []) : post.all isSpace = true ∧
      ∃ through, commentText = opener ++ through ∧ cut closer through = some (through, []) := by
  have hr := splits_result (v ++ gap ++ commentText ++ post) inQuote atStart
  rw [Splits] at h
  rw [h] at hr
  generalize hl : v ++ gap ++ commentText ++ post = l at hr
  cases hr with
  | none => exact absurd rfl hne
  | closed _ hcut hpost => exact ⟨hpost, _, rfl, hcut⟩

/-- With no comment the whole body is the value. -/
theorem Splits.none (h : Splits inQuote atStart v gap [] post false) : gap = [] ∧ post = [] := by
  have hr := splits_result (v ++ gap ++ [] ++ post) inQuote atStart
  rw [Splits] at h
  rw [h] at hr
  generalize hl : v ++ gap ++ [] ++ post = l at hr
  cases hr with
  | none => exact ⟨rfl, rfl⟩

theorem Splits.not_opens_nil : ¬ Splits inQuote atStart v gap [] post true := by
  intro h
  obtain ⟨-, tail, htail, -⟩ := h.opens
  cases htail

end Splits

/-- A value's trailing comment: none, a closed one, or one that takes more lines. `block` is where
a closed one rides. -/
inductive Trailing (inQuote atStart block : Bool) (v : Line) : Option Comment → Bool → Prop
  | none : Splits inQuote atStart v [] [] [] false → Trailing inQuote atStart block v none false
  | closed {gap commentText post : Line} : commentText ≠ [] →
      Splits inQuote atStart v gap commentText post false →
      Trailing inQuote atStart block v
        (some { text := ⟨commentText, []⟩, attachment := .trailing, trailingBlock := block
                indent := gap, post }) false
  | opens {gap post : Line} {text : Block} : Splits inQuote atStart v gap text.first [] true →
      IsRegion closer 2 text → post.all isSpace = true →
      Trailing inQuote atStart block v
        (some { text, attachment := .trailing, trailingBlock := true, indent := gap, post }) true

/-- The lines of a value with its trailing comment. -/
def withTrailing (value : Block) : Option Comment → Block
  | none => value
  | some tc => value.append tc.textLines

/-! ## Comments -/

theorem scanBlockComment_eq_ok {preBlankLines : List Line} (hlen : 2 ≤ body.length) :
    scanBlockComment i indent body preBlankLines rest = .ok (c, k) ↔
      ∃ text post, IsRegion closer 2 text ∧ post.all isSpace = true ∧
        c = { text, attachment := .leading, preBlankLines, indent, post } ∧
        k = text.rest.length ∧ ∃ more, body :: rest = (text.appendLast post).lines ++ more := by
  rw [scanBlockComment]
  cases hr : region closer 2 body rest with
  | none =>
    simp only [reduceCtorEq, false_iff]
    rintro ⟨text, post, htext, -, -, -, hmore⟩
    rw [(region_eq_some (by decide) hlen).mpr ⟨htext, rfl, hmore⟩] at hr
    cases hr
  | some r =>
    obtain ⟨text, post, k'⟩ := r
    obtain ⟨htext, hk, hmore⟩ := (region_eq_some (by decide) hlen).mp hr
    dsimp only
    constructor
    · intro h
      split at h
      · next hpost =>
        cases h
        exact ⟨text, post, htext, hpost, rfl, hk, hmore⟩
      · cases h
    · rintro ⟨text', post', htext', hpost', rfl, rfl, hmore'⟩
      have hr' := (region_eq_some (by decide) hlen).mpr ⟨htext', rfl, hmore'⟩
      rw [hr] at hr'
      cases hr'
      rw [if_pos hpost']

/-- A comment with no closer on its first line has lines below it. -/
theorem rest_ne_nil_of_cut (post : Line) {text : Block} {t : Line} (htext : IsRegion closer 2 text)
    (hfirst : (text.appendLast post).first = opener ++ t) (hcut : cut closer t = none) :
    text.rest ≠ [] := by
  intro hnil
  obtain ⟨first, rest⟩ := text
  dsimp only at hnil
  subst hnil
  obtain ⟨hlen, ⟨-, hclosed⟩ | ⟨before, last, hrest, -⟩⟩ := htext
  · have hdrop : first.drop 2 ++ post = t := by
      rw [← List.drop_append_of_le_length hlen, show first ++ post = _ from hfirst]
      rfl
    have h := cut_append (by decide) hclosed (w := post)
    rw [hdrop, hcut] at h
    cases h
  · exact absurd hrest.symm (by simp)

theorem rest_ne_nil_of_opens {text : Block} {inQuote atStart : Bool}
    (h : Splits inQuote atStart v gap text.first [] true) (htext : IsRegion closer 2 text) :
    text.rest ≠ [] := by
  obtain ⟨-, tail, htail, hcut⟩ := h.opens
  exact rest_ne_nil_of_cut [] htext (by rw [Block.appendLast_nil, htail]) hcut

/-! ## Values -/

/-- The literal before a value's tail: a blob region, or nothing. -/
def Literal (isBlob : Bool) (literal : Block) : Prop :=
  if isBlob then IsRegion blobClose blobOpen.length literal else literal = ⟨[], []⟩

/-- A key line's value: the literal, the tail, its trailing comment, whether it opens one. -/
structure ValueParts where
  literal : Block
  tail : Line
  trailing : Option Comment
  opens : Bool

/-- The value. -/
def ValueParts.value (p : ValueParts) : Block := p.literal.appendLast p.tail

/-- Every line of the value, its trailing comment among them. -/
def ValueParts.block (p : ValueParts) : Block := withTrailing p.value p.trailing

/-- The parts are as the scanner finds them. -/
def ValueParts.Valid (p : ValueParts) (isBlob : Bool) : Prop :=
  Literal isBlob p.literal ∧ Trailing false (!isBlob) isBlob p.tail p.trailing p.opens

def ValueParts.toLine (p : ValueParts) (isBlob : Bool) : ValueLine where
  value := p.value
  tailValue := p.tail
  literalPrefixLines := p.literal.rest.length
  trailing := p.trailing
  blobOpen := isBlob
  opensComment := p.opens
  taken := p.block.rest.length

/-- How the literal is found. -/
theorem scanLiteral_eq_ok {isBlob : Bool} {literal : Block} {tail : Line}
    (hblob : isBlob = true → blobOpen <+: candidate) :
    (if isBlob then scanBlobLiteral i candidate rest else .ok (⟨[], []⟩, candidate, 0)) =
        .ok (literal, tail, k) ↔
      Literal isBlob literal ∧ k = literal.rest.length ∧
        ∃ more, candidate :: rest = (literal.appendLast tail).lines ++ more := by
  cases isBlob with
  | false =>
    simp only [Literal, Bool.false_eq_true, if_false, Except.ok.injEq, Prod.mk.injEq]
    constructor
    · rintro ⟨rfl, rfl, rfl⟩
      exact ⟨rfl, rfl, rest, rfl⟩
    · rintro ⟨rfl, rfl, more, hmore⟩
      exact ⟨rfl, (List.cons.inj hmore).1, rfl⟩
  | true =>
    have hlen : blobOpen.length ≤ candidate.length := (hblob rfl).length_le
    simp only [Literal, if_true, scanBlobLiteral]
    rw [← region_eq_some (by decide) hlen]
    cases region blobClose blobOpen.length candidate rest with
    | none => simp
    | some r => simp

section Trailing

variable {isBlob inQuote atStart opens : Bool} {tail : Line} {more : List Line}
  {trailing : Option Comment} {taken : Nat}

/-- A trailing comment that is found stands on the lines that are taken. -/
theorem scanTrailing_sound {r : TrailingSplit} (hr : splitTrailingComment tail inQuote atStart = r)
    (h : scanTrailing i k isBlob r rest = .ok (trailing, taken)) :
    Trailing inQuote atStart isBlob r.value trailing r.opensComment ∧
      taken = k + (withTrailing ⟨r.value, []⟩ trailing).rest.length ∧
        ∃ more, tail :: rest.drop k = (withTrailing ⟨r.value, []⟩ trailing).lines ++ more := by
  obtain ⟨hsplits, hparts⟩ := splits_of_eq hr
  obtain ⟨v, gap, commentText, post, opens⟩ := r
  dsimp only at hsplits hparts ⊢
  rw [scanTrailing] at h
  split at h
  · next hopens =>
    dsimp only at hopens h
    subst hopens
    obtain ⟨rfl, t, rfl, hcut⟩ := hsplits.opens
    obtain ⟨⟨tc, taken'⟩, htc, h⟩ := bind_eq_ok.mp h
    cases h
    rw [scanBlockComment_eq_ok (by simp [opener])] at htc
    obtain ⟨text, post, htext, hpost, rfl, rfl, more, hmore⟩ := htc
    obtain ⟨hfirst, hdrop⟩ := List.cons.inj hmore
    have hrest : text.rest ≠ [] := rest_ne_nil_of_cut _ htext hfirst.symm hcut
    rw [Block.first_appendLast hrest] at hfirst
    rw [hfirst] at hsplits hparts
    refine ⟨.opens hsplits htext hpost, ?_, more, ?_⟩
    · simp [withTrailing, Comment.textLines, Block.prepend]
    · rw [hdrop, ← hparts]
      simp [withTrailing, Comment.textLines, Block.prepend, Block.lines,
        Block.first_appendLast hrest]
  · next hopens =>
    rw [Bool.not_eq_true] at hopens
    dsimp only at hopens h
    subst hopens
    split at h
    · next hnone =>
      subst hnone
      cases h
      obtain ⟨rfl, rfl⟩ := hsplits.none
      exact ⟨.none hsplits, rfl, rest.drop k, by simp [withTrailing, Block.lines, ← hparts]⟩
    · next hsome =>
      cases h
      refine ⟨.closed hsome hsplits, rfl, rest.drop k, ?_⟩
      simp [withTrailing, Comment.textLines, Block.prepend, Block.lines, ← hparts]

/-- A trailing comment that stands on the lines is found. -/
theorem scanTrailing_complete {v : Line} (h : Trailing inQuote atStart isBlob v trailing opens)
    (hmore : tail :: rest.drop k = (withTrailing ⟨v, []⟩ trailing).lines ++ more) :
    ∃ r, splitTrailingComment tail inQuote atStart = r ∧ r.value = v ∧ r.opensComment = opens ∧
      scanTrailing i k isBlob r rest =
        .ok (trailing, k + (withTrailing ⟨v, []⟩ trailing).rest.length) := by
  obtain ⟨htail, hdrop⟩ := List.cons.inj hmore
  cases h with
  | none hs =>
    refine ⟨_, rfl, ?_⟩
    rw [htail]
    have hs' : splitTrailingComment v inQuote atStart = ⟨v, [], [], [], false⟩ := by
      simpa [Splits] using hs
    simp [withTrailing, hs', scanTrailing]
  | @closed gap commentText post hne hs =>
    refine ⟨_, rfl, ?_⟩
    have htail' : tail = v ++ gap ++ commentText ++ post := by
      rw [htail]
      simp [withTrailing, Comment.textLines, Block.prepend]
    rw [htail', hs]
    simp [withTrailing, scanTrailing, hne, Comment.textLines, Block.prepend]
  | @opens gap post text hs htext hpost =>
    have hrest : text.rest ≠ [] := rest_ne_nil_of_opens hs htext
    have htail' : tail = v ++ gap ++ text.first ++ [] := by
      rw [htail]
      simp [withTrailing, Comment.textLines, Block.prepend, Block.first_appendLast hrest]
    refine ⟨_, rfl, ?_⟩
    rw [htail', hs]
    refine ⟨rfl, rfl, ?_⟩
    have hscan : scanBlockComment (i + k) gap text.first [] (rest.drop k) =
        .ok ({ text, attachment := .leading, indent := gap, post }, text.rest.length) := by
      rw [scanBlockComment_eq_ok htext.1]
      refine ⟨text, post, htext, hpost, rfl, rfl, more, ?_⟩
      rw [hdrop]
      simp [withTrailing, Comment.textLines, Block.prepend, Block.lines,
        Block.first_appendLast hrest]
    rw [scanTrailing, if_pos rfl, hscan]
    simp [bind_eq_ok, withTrailing, Comment.textLines, Block.prepend]

end Trailing

theorem ValueParts.block_eq (p : ValueParts) :
    p.block = p.literal.append (withTrailing ⟨p.tail, []⟩ p.trailing) := by
  rw [block, value]
  cases p.trailing with
  | none => rw [withTrailing, withTrailing, Block.appendLast_eq_append]
  | some tc => rw [withTrailing, withTrailing, Block.appendLast_eq_append, Block.append_assoc]

theorem startsBlob_open (h : startsBlob key candidate = true) : blobOpen <+: candidate := by
  rw [startsBlob, Bool.and_eq_true] at h
  exact List.isPrefixOf_iff_prefix.mp h.2

/-- The value that is found stands on the lines that are taken. -/
theorem scanValue_sound {V : ValueLine} (h : scanValue i key candidate rest = .ok V) :
    ∃ p : ValueParts, p.Valid (startsBlob key candidate) ∧
      V = p.toLine (startsBlob key candidate) ∧
        ∃ more, candidate :: rest = p.block.lines ++ more := by
  rw [scanValue, bind_eq_ok] at h
  obtain ⟨⟨literal, tail, k⟩, hlit, h⟩ := h
  obtain ⟨⟨trailing, taken⟩, htrailing, h⟩ := bind_eq_ok.mp h
  cases h
  rw [scanLiteral_eq_ok startsBlob_open] at hlit
  obtain ⟨hlit, rfl, more, hmore⟩ := hlit
  obtain ⟨htr, htaken, more', hmore'⟩ := scanTrailing_sound rfl htrailing
  have hdrop : rest.drop literal.rest.length = more := by
    obtain ⟨-, hrest⟩ := List.cons.inj hmore
    rw [hrest]
    exact List.drop_left' (by simp)
  refine ⟨⟨literal, _, trailing, _⟩, ⟨hlit, htr⟩, ?_, more', ?_⟩
  · rw [htaken, ValueParts.toLine, ValueParts.block_eq]
    simp [Block.append, ValueParts.value]
  · rw [hdrop] at hmore'
    obtain ⟨htail, hmore'⟩ := List.cons.inj hmore'
    rw [ValueParts.block_eq, Block.lines_append, List.append_assoc, hmore]
    dsimp only
    rw [← htail]
    exact congrArg _ hmore'

/-- The value that stands on the lines is found. -/
theorem scanValue_complete {p : ValueParts} {more : List Line}
    (hp : p.Valid (startsBlob key candidate)) (hmore : candidate :: rest = p.block.lines ++ more) :
    scanValue i key candidate rest = .ok (p.toLine (startsBlob key candidate)) := by
  obtain ⟨hlit, htr⟩ := hp
  rw [ValueParts.block_eq, Block.lines_append, List.append_assoc] at hmore
  have hdrop : rest.drop p.literal.rest.length =
      (withTrailing ⟨p.tail, []⟩ p.trailing).rest ++ more := by
    obtain ⟨-, hrest⟩ := List.cons.inj hmore
    rw [hrest]
    exact List.drop_left' (by simp)
  obtain ⟨r, hr, hv, hopens, hscan⟩ := scanTrailing_complete (i := i) htr
    (show (withTrailing ⟨p.tail, []⟩ p.trailing).first :: rest.drop p.literal.rest.length =
      (withTrailing ⟨p.tail, []⟩ p.trailing).lines ++ more by rw [hdrop]; rfl)
  have hlit' := (scanLiteral_eq_ok (i := i) startsBlob_open).mpr
    ⟨hlit, rfl, _, hmore⟩
  rw [scanValue, hlit']
  simp only [bind, Except.bind]
  rw [hr, hscan]
  simp only [ValueParts.toLine, hv, hopens, ValueParts.block_eq]
  simp [Block.append, ValueParts.value]

end Dsl41.Jil
