import Dsl41.Jil.Canonical

/-!
# Canonical attributes

A scanned attribute has a canonical one with the same key, whose value is the trimmed one: it is
scanned as well, its lines are what the canonical mode writes for the first attribute, and the
canonical mode writes the same for it.
-/

namespace Dsl41.Jil

open Dsl41.Infra

variable {q o q' o' isBlob opens : Bool} {v w l key : Line} {b : Block} {a : RawAttr}
  {leads comments : List Comment}

/-! ## Values -/

/-- The parts of a value, as the canonical mode writes them. -/
def ValueParts.trim (p : ValueParts) (isBlob : Bool) : ValueParts where
  literal := p.literal
  tail := rstrip p.tail
  trailing := p.trailing.map (trimTrailing (lineGap (!isBlob) (rstrip p.tail)))
  opens := p.opens

theorem ValueParts.Valid.trim {p : ValueParts} (h : p.Valid isBlob) :
    (p.trim isBlob).Valid isBlob := ⟨h.1, h.2.trim⟩

theorem map_rstrip_map : (b.map rstrip).map rstrip = b.map rstrip := by
  simp [Block.map]

theorem ValueParts.trim_trim (p : ValueParts) : (p.trim isBlob).trim isBlob = p.trim isBlob := by
  simp only [trim, rstrip_rstrip, Option.map_map]
  congr 1
  refine Option.map_congr fun tc _ => ?_
  simp [trimTrailing, map_rstrip_map]

/-- The literal's last line ends with its closer, so it is trimmed. -/
theorem Literal.rstrip_last {literal : Block} (h : Literal isBlob literal) :
    (∃ first, literal = ⟨first, []⟩ ∧ rstrip first = first) ∨
      ∃ first before last, literal = ⟨first, before ++ [last]⟩ ∧ rstrip last = last := by
  have hend : ∀ (x u : Line), cut blobClose u = some (u, []) → rstrip (x ++ u) = x ++ u := by
    intro x u hu
    obtain ⟨-, before, hbefore⟩ := cut_eq_some hu
    obtain ⟨tag, htag⟩ : ∃ tag, blobClose = tag ++ ['>'] := ⟨"</auto_blobt".toList, by decide⟩
    rw [hbefore, htag, ← List.append_assoc, ← List.append_assoc, rstrip_concat (by decide)]
  cases isBlob with
  | false => exact .inl ⟨[], h, rfl⟩
  | true =>
    obtain ⟨first, rest⟩ := literal
    obtain ⟨-, ⟨hrest, hclosed⟩ | ⟨before, last, hrest, -, -, hlast⟩⟩ := h
    · refine .inl ⟨first, by rw [← hrest], ?_⟩
      have := hend (first.take blobOpen.length) _ hclosed
      rwa [List.take_append_drop] at this
    · exact .inr ⟨first, before, last, by rw [← hrest], hend [] last hlast⟩

/-- Only the tail of a value is trimmed. -/
theorem canonicalValue_parts {p : ValueParts} (h : Literal isBlob p.literal)
    (hvalue : a.rawValue = p.value) (hliteral : a.literalPrefixLines = p.literal.rest.length) :
    canonicalValue a = p.literal.appendLast (rstrip p.tail) := by
  rw [canonicalValue, hvalue, hliteral, ValueParts.value]
  obtain ⟨first, hl, hfirst⟩ | ⟨first, before, last, hl, hlast⟩ := h.rstrip_last
  · rw [hl]
    simp [rstrip_append hfirst]
  · rw [hl]
    have hbefore : (before.zipIdx 1).map (fun ln =>
        if ln.2 ≤ before.length then ln.1 else rstrip ln.1) = before := by
      conv => rhs; rw [← List.zipIdx_map_fst 1 before]
      refine List.map_congr_left fun ln hln => if_pos ?_
      have := List.snd_lt_of_mem_zipIdx hln
      omega
    simp [List.zipIdx_append, hbefore, rstrip_append hlast, Nat.add_comm 1, Nat.lt_add_one_iff]

theorem canonicalValue_addLine (hn : a.literalPrefixLines ≤ a.rawValue.rest.length) :
    canonicalValue { a with rawValue := a.rawValue.addLine l } =
      (canonicalValue a).addLine (rstrip l) := by
  simp only [canonicalValue, Block.addLine, List.zipIdx_append, List.map_append]
  simp [Nat.not_lt.mpr (show a.literalPrefixLines ≤ 1 + a.rawValue.rest.length by omega)]

/-! ## The key line -/

/-- The separator of a key line. -/
def valueSep (first : Line) : Line := if first = [] then [] else [' ']

theorem keyValue_eq : keyValue key v = key ++ [':'] ++ valueSep v ++ v := by
  rw [keyValue, valueSep]
  split
  · next h => simp [h]
  · simp

theorem valueSep_all : (valueSep v).all isBlank = true := by
  rw [valueSep]
  split
  · rfl
  · rfl

/-- A comment after a key line's value, one blank before it. -/
theorem keyValue_append (key : Line) {value text : Block} {gap : Line} (htext : text.first ≠ [])
    (h : (value = ⟨[], []⟩ ∧ gap = []) ∨ (value.first ≠ [] ∧ gap = [' '])) :
    (Block.append ⟨keyValue key value.first, value.rest⟩ (text.prepend [' '])).lines =
      ((value.append (text.prepend gap)).prepend
        (key ++ [':'] ++ valueSep (value.append (text.prepend gap)).first)).lines := by
  obtain ⟨rfl, rfl⟩ | ⟨hne, rfl⟩ := h
  · simp [keyValue, valueSep, htext, Block.prepend, Block.lines]
  · have hfirst : (value.append (text.prepend [' '])).first ≠ [] := by
      obtain ⟨t, ht⟩ := value.first_appendLast_cons (t := (text.prepend [' ']).first)
      change (value.appendLast _).first ≠ []
      rw [ht]
      exact fun h => hne (List.append_eq_nil_iff.mp h).1
    rw [valueSep, if_neg hfirst, Block.prepend_append, keyValue, if_neg hne]
    simp [Block.prepend]

theorem literal_first_ne_nil {literal : Block} (h : Literal true literal) : literal.first ≠ [] := by
  have hlen : blobOpen.length ≤ literal.first.length := h.1
  intro hnil
  rw [hnil] at hlen
  exact absurd hlen (by decide)

/-- What the canonical mode writes for a value: its trimmed parts. -/
theorem canonicalWithTrailing_valid {p : ValueParts} (hp : p.Valid isBlob)
    (hl : ∀ c ∈ leads, OwnComment c) :
    canonicalWithTrailing (keyValue key (p.trim isBlob).value.first) (p.trim isBlob).value.rest
        (leads ++ p.trailing.toList) =
      ((p.trim isBlob).block.prepend
        (key ++ [':'] ++ valueSep (p.trim isBlob).block.first)).lines := by
  rw [canonicalWithTrailing, trailingPair_leads hl]
  obtain ⟨literal, tail, trailing, opens⟩ := p
  obtain ⟨hliteral, htrailing⟩ := hp
  dsimp only at htrailing hliteral
  -- the gap before a comment, and the value it stands after
  have hgap : ((⟨literal, tail, trailing, opens⟩ : ValueParts).trim isBlob).value = ⟨[], []⟩ ∧
      lineGap (!isBlob) (rstrip tail) = [] ∨
      ((⟨literal, tail, trailing, opens⟩ : ValueParts).trim isBlob).value.first ≠ [] ∧
        lineGap (!isBlob) (rstrip tail) = [' '] := by
    cases isBlob with
    | false =>
      have hempty : literal = ⟨[], []⟩ := hliteral
      by_cases hv : rstrip tail = []
      · exact .inl ⟨by simp [ValueParts.trim, ValueParts.value, hempty, hv], by simp [lineGap, hv]⟩
      · exact .inr ⟨by simp [ValueParts.trim, ValueParts.value, hempty, hv], by simp [lineGap, hv]⟩
    | true =>
      refine .inr ⟨?_, by simp [lineGap]⟩
      obtain ⟨t, ht⟩ := literal.first_appendLast_cons (t := rstrip tail)
      simp only [ValueParts.trim, ValueParts.value, ht]
      exact fun h => literal_first_ne_nil hliteral (List.append_eq_nil_iff.mp h).1
  have hride : ∀ text : Block, text.first ≠ [] → _ := fun text htext =>
    keyValue_append key htext hgap
  cases htrailing with
  | none =>
    simp [trailingPair, ValueParts.block, ValueParts.trim, withTrailing, keyValue_eq,
      Block.prepend, Block.lines, ValueParts.value]
  | @closed gap commentText post hne hs =>
    obtain ⟨-, through, rfl, hcut⟩ := hs.closed hne
    have htrim : rstrip (opener ++ through) = opener ++ through := rstrip_of_closer hcut
    have h := hride ⟨opener ++ through, []⟩ (by simp [opener])
    cases isBlob with
    | true =>
      simpa [trailingPair, ValueParts.block, ValueParts.trim, withTrailing, trimTrailing,
        Comment.textLines, Block.map, htrim] using h
    | false =>
      have hempty : literal = ⟨[], []⟩ := hliteral
      subst hempty
      simpa [trailingPair, ValueParts.block, ValueParts.trim, withTrailing, trimTrailing,
        Comment.textLines, Block.map, htrim, ValueParts.value, Block.prepend, Block.lines] using h
  | @opens gap post text hs htext hpost =>
    obtain ⟨-, tail', htail, -⟩ := hs.opens
    have hne : (text.map rstrip).first ≠ [] := by
      rw [Block.map, htail, rstrip_append rfl]
      exact List.cons_ne_nil _ _
    simpa [trailingPair, ValueParts.block, ValueParts.trim, withTrailing, trimTrailing,
      Comment.textLines] using hride _ hne

/-! ## Comments -/

theorem emitCanonicalComments_append :
    emitCanonicalComments (leads ++ comments) =
      emitCanonicalComments leads ++ emitCanonicalComments comments := by
  simp [emitCanonicalComments, ownLine]

theorem emitCanonicalComments_trailing (h : ∀ c ∈ comments, c.attachment = .trailing) :
    emitCanonicalComments comments = [] := by
  have hnone : ownLine ([] ++ comments) = ownLine [] := ownLine_append h
  rw [List.nil_append] at hnone
  rw [emitCanonicalComments, hnone]
  rfl

theorem emitCanonicalComments_leads (h : ∀ c ∈ leads, OwnComment c) :
    emitCanonicalComments leads = leads.flatMap fun c => (c.text.map rstrip).lines := by
  rw [emitCanonicalComments, ownLine_leads h]
  rfl

theorem emitFullLine_trimComment {c : Comment} {preBlankLines : List Line} :
    emitFullLine (trimComment preBlankLines c) = preBlankLines ++ (c.text.map rstrip).lines := by
  simp [emitFullLine, trimComment, Comment.textLines, Block.prepend]

theorem Trailing.attachment {block : Bool} {trailing : Option Comment}
    (h : Trailing q o block v trailing opens) :
    ∀ c ∈ trailing.toList, c.attachment = .trailing := by
  intro c hc
  rw [Option.mem_toList] at hc
  subst hc
  exact h.trailing.1

/-! ## Continuation lines -/

/-- The canonical lines of an attribute whose value goes on. -/
theorem canonicalAttr_addLine (h : (trailingPair a.comments).2 = none)
    (hn : a.literalPrefixLines ≤ a.rawValue.rest.length) :
    canonicalAttr { a with rawValue := a.rawValue.addLine l } = canonicalAttr a ++ [rstrip l] := by
  simp only [canonicalAttr, canonicalWithTrailing, h]
  rw [canonicalValue_addLine hn]
  simp [Block.addLine]

theorem canonicalAttr_addComment {tc : Comment} (h : (trailingPair a.comments).2 = none)
    (hn : a.literalPrefixLines ≤ a.rawValue.rest.length) (htc : tc.attachment = .trailing)
    (hb : tc.trailingBlock = true) :
    canonicalAttr { a with rawValue := a.rawValue.addLine l, comments := a.comments ++ [tc] } =
      canonicalAttr a ++ (Block.append ⟨rstrip l, []⟩ ((tc.text.map rstrip).prepend [' '])).lines := by
  have hcomments : emitCanonicalComments (a.comments ++ [tc]) = emitCanonicalComments a.comments := by
    have htail : emitCanonicalComments [tc] = [] :=
      emitCanonicalComments_trailing fun c hc => by rw [List.mem_singleton.mp hc, htc]
    rw [emitCanonicalComments_append, htail, List.append_nil]
  have hvalue : canonicalValue
      { a with rawValue := a.rawValue.addLine l, comments := a.comments ++ [tc] } =
      (canonicalValue a).addLine (rstrip l) := canonicalValue_addLine hn
  simp only [canonicalAttr, hcomments, canonicalWithTrailing, trailingPair_append_block htc hb, h,
    hvalue]
  simp only [Block.addLine]
  rw [Block.append_concat]
  simp [Block.lines]

/-- A line that opens no comment is walked to its end. -/
theorem exists_walk_line (h : (splitTrailingComment l q o).opensComment = false) :
    ∃ q' o', Walk 0 q o l q' o' := by
  have hspaces : ∀ {w : Line} {q o : Bool}, w.all isSpace = true → ∃ o', Walk 0 q o w q o' := by
    intro w
    induction w with
    | nil => exact fun _ => ⟨_, .nil⟩
    | cons c w ih =>
      intro q o hw
      rw [List.all_cons, Bool.and_eq_true] at hw
      obtain ⟨o', hwalk⟩ := ih (q := q) (o := isBlank c) hw.2
      refine ⟨o', .char (ne_of_isSpace hw.1 (by decide)) (fun hp => ?_) hwalk⟩
      exact ne_of_isSpace hw.1 (by decide) (opener_iff.mp hp.2.2).1
  have hskip : ∀ {u w : Line} {q o : Bool}, w.all isSpace = true →
      ∃ o', Walk u.length q o (u ++ w) q o' := by
    intro u
    induction u with
    | nil => exact fun hw => hspaces hw
    | cons c u ih =>
      intro w q o hw
      obtain ⟨o', hwalk⟩ := ih (o := isBlank c) hw
      exact ⟨o', .skip hwalk⟩
  obtain ⟨u, m, q', o', rfl, hwalk, hend⟩ := exists_walk (q := q) (o := o) []
    (Nat.zero_le l.length)
  change WalkEnd _ m q' o' (splitTrailingComment (u ++ m) q o) at hend
  generalize hr : splitTrailingComment (u ++ m) q o = r at hend
  rw [hr] at h
  cases hend with
  | none => exact ⟨q', o', by rwa [List.append_nil]⟩
  | @closed _ through post hp hcut hpost =>
    obtain ⟨t, rfl⟩ := hp
    have hcut' : cut closer t = some (through, post) := hcut
    obtain rfl := (cut_eq_some hcut').1
    -- the trailing comment is passed like any closed one
    obtain ⟨o'', hend⟩ := hskip (u := '*' :: through) (q := false) (o := false) hpost
    exact ⟨false, o'', hwalk.append (.region ⟨_, rfl⟩ hcut' hend) (by simp [opener])⟩
  | opens => cases h

/-! ## Attributes -/

/-- The canonical attribute of another. -/
structure CanonicalAttr (a g : RawAttr) (cont : Option Bool) : Prop where
  scanned : ScannedAttr g cont
  lines : preserveAttr g = canonicalAttr a
  again : canonicalAttr g = canonicalAttr a
  key : g.key = a.key
  value : g.rawValue = canonicalValue a
  trimmed : canonicalValue g = g.rawValue
  literal : g.literalPrefixLines = a.literalPrefixLines

/-- The last line of a continued value is not empty once it is trimmed. -/
def FullTail (a : RawAttr) : Prop := ∀ l ∈ a.rawValue.rest.getLast?, rstrip l ≠ []

/-- An open attribute ends in a full line, and no literal comes before it. -/
theorem ScannedAttr.fullTail {cont : Option Bool} (h : ScannedAttr a cont) (hcont : cont ≠ none) :
    FullTail a ∧ a.literalPrefixLines ≤ a.rawValue.rest.length := by
  induction h with
  | @line key _ _ _ _ p _ _ _ hp =>
    have hblob : startsBlob key p.block.first = false := by
      by_contra hblob
      rw [Bool.not_eq_false, startsBlob, Bool.and_eq_true, decide_eq_true_eq] at hblob
      have hkey : lower key ∉ continuationAttrs := by
        rw [hblob.1]
        decide
      exact hcont (by simp [contOf, hkey])
    rw [hblob] at hp
    obtain ⟨literal, tail, trailing, opens⟩ := p
    have hempty : literal = ⟨[], []⟩ := hp.1
    subst hempty
    exact ⟨by rintro _ ⟨⟩, Nat.zero_le _⟩
  | @continued a _ line _ hother _ _ ih =>
    refine ⟨fun l hl => ?_, ?_⟩
    · rw [Block.addLine, List.getLast?_concat, Option.mem_some_iff] at hl
      subst hl
      rw [Ne, rstrip_eq_nil, hother.notBlank]
      decide
    · have := (ih (by simp)).2
      simp only [Block.addLine, List.length_append, List.length_singleton]
      omega
  | commented => exact absurd rfl hcont

theorem Trailing.walk {block : Bool} {trailing : Option Comment}
    (h : Trailing q o block v trailing opens) : ∃ q' o', Walk 0 q o v q' o' := by
  cases trailing with
  | none =>
    cases h with
    | none hs => exact hs.walk_none
  | some tc => exact ⟨false, h.walk_value⟩

/-- The first line of a value and its comment begins with the value. -/
theorem withTrailing_first (v : Line) (trailing : Option Comment) :
    ∃ t, (withTrailing ⟨v, []⟩ trailing).first = v ++ t := by
  cases trailing with
  | none => exact ⟨[], (List.append_nil v).symm⟩
  | some tc => exact ⟨tc.textLines.first, rfl⟩

/-- In canonical text the value is followed by nothing, or by the gap and a comment. -/
theorem withTrailing_trim_first (w gap : Line) {block : Bool} {trailing : Option Comment}
    (h : Trailing q o block v trailing opens) :
    (withTrailing ⟨w, []⟩ (trailing.map (trimTrailing gap))).first = w ∨
      ∃ t, (withTrailing ⟨w, []⟩ (trailing.map (trimTrailing gap))).first = w ++ gap ++ '/' :: t := by
  have hcomment : ∀ text : Block, opener <+: text.first →
      ∃ t, (text.map rstrip).first = '/' :: t := by
    rintro text ⟨t, ht⟩
    exact ⟨'*' :: rstrip t, by rw [Block.map, ← ht, rstrip_append rfl]; rfl⟩
  cases h with
  | none => exact .inl rfl
  | closed hne hs =>
    obtain ⟨-, through, rfl, -⟩ := hs.closed hne
    simpa [withTrailing, trimTrailing, Comment.textLines, Block.prepend] using
      .inr (hcomment ⟨opener ++ through, []⟩ ⟨_, rfl⟩)
  | opens hs =>
    obtain ⟨-, tail, htail, -⟩ := hs.opens
    simpa [withTrailing, trimTrailing, Comment.textLines, Block.prepend] using
      .inr (hcomment _ ⟨tail, htail.symm⟩)

/-- Canonical text starts with no blank where the value did not. -/
theorem Trailing.noGap_trim {block : Bool} {trailing : Option Comment}
    (h : Trailing q o block v trailing opens) (hgap : NoGap w) :
    NoGap (withTrailing ⟨rstrip w, []⟩
      (trailing.map (trimTrailing (lineGap true (rstrip w))))).first := by
  obtain ⟨x, hw, -⟩ := exists_rstrip w
  by_cases hnil : rstrip w = []
  · have hgap' : lineGap true (rstrip w) = [] := by simp [lineGap, hnil]
    rw [hnil] at hgap' ⊢
    rw [hgap']
    rcases withTrailing_trim_first [] [] h with hfirst | ⟨t, hfirst⟩
    · rw [hfirst]
      rintro _ ⟨⟩
    · rw [hfirst]
      exact fun c hc => by cases hc; decide
  · obtain ⟨t, ht⟩ := withTrailing_first (rstrip w)
      (trailing.map (trimTrailing (lineGap true (rstrip w))))
    obtain ⟨c, cs, hcs⟩ := List.exists_cons_of_ne_nil hnil
    rw [ht, hcs]
    rw [hw, hcs] at hgap
    exact fun d hd => hgap d hd

/-- A value starts with no blank where its line does not. -/
theorem noGap_of_withTrailing {trailing : Option Comment}
    (h : NoGap (withTrailing ⟨v, []⟩ trailing).first) : NoGap v := by
  obtain ⟨t, ht⟩ := withTrailing_first v trailing
  rw [ht] at h
  intro c hc
  cases v with
  | nil => cases hc
  | cons d v => exact h c hc

/-- Trimming a value neither makes nor breaks a blob region. -/
theorem startsBlob_trim {p : ValueParts} (hp : p.Valid (startsBlob key p.block.first)) :
    startsBlob key (p.trim (startsBlob key p.block.first)).block.first =
      startsBlob key p.block.first := by
  obtain ⟨literal, tail, trailing, opens⟩ := p
  obtain ⟨hliteral, htrailing⟩ := hp
  dsimp only at hliteral htrailing
  generalize hb : startsBlob key (ValueParts.mk literal tail trailing opens).block.first = b at *
  have hfirst : ∀ t trailing', ∃ w, (ValueParts.mk literal t trailing' opens).block.first =
      literal.first ++ w := by
    intro t trailing'
    rw [ValueParts.block_eq]
    exact Block.first_appendLast_cons
  cases b with
  | true =>
    have hopen := startsBlob_open hb
    rw [startsBlob, Bool.and_eq_true] at hb ⊢
    refine ⟨hb.1, List.isPrefixOf_iff_prefix.mpr ?_⟩
    obtain ⟨w, hw⟩ := hfirst tail trailing
    rw [hw] at hopen
    obtain ⟨w', hw'⟩ := hfirst (rstrip tail)
      (trailing.map (trimTrailing (lineGap (!true) (rstrip tail))))
    have hlit : blobOpen <+: literal.first :=
      List.prefix_of_prefix_length_le hopen ⟨w, rfl⟩ hliteral.1
    exact hlit.trans ⟨w', hw'.symm⟩
  | false =>
    have hempty : literal = ⟨[], []⟩ := hliteral
    subst hempty
    rw [Bool.eq_false_iff] at hb ⊢
    intro hblob
    refine hb ?_
    have hopen := startsBlob_open hblob
    rw [startsBlob, Bool.and_eq_true] at hblob ⊢
    refine ⟨hblob.1, List.isPrefixOf_iff_prefix.mpr ?_⟩
    -- the opener of a blob holds neither a blank nor a slash, so it lies in the value
    have htail : blobOpen <+: rstrip tail := by
      obtain hfirst | ⟨t, hfirst⟩ := withTrailing_trim_first (rstrip tail)
        (lineGap true (rstrip tail)) htrailing
      · rwa [show ((ValueParts.mk ⟨[], []⟩ tail trailing opens).trim false).block.first = _ from
          hfirst] at hopen
      · rw [show ((ValueParts.mk ⟨[], []⟩ tail trailing opens).trim false).block.first = _ from
          hfirst, lineGap] at hopen
        split at hopen
        · rw [List.append_nil] at hopen
          exact prefix_of_append_cons hopen (by decide)
        · rw [List.append_assoc] at hopen
          exact prefix_of_append_cons hopen (by decide)
    obtain ⟨t, ht⟩ := withTrailing_first tail trailing
    exact (htail.trans rstrip_begins).trans ⟨t, ht.symm⟩

/-- The canonical lines of a key line: its comments and its trimmed parts. -/
theorem canonicalAttr_line (key indent sep : Line) (preBlankLines : List Line) {p : ValueParts}
    (hp : p.Valid isBlob) (hl : ∀ c ∈ leads, OwnComment c) :
    canonicalAttr { key, rawValue := p.value, comments := leads ++ p.trailing.toList, preBlankLines
                    indent, sep, literalPrefixLines := p.literal.rest.length } =
      (leads.flatMap fun c => (c.text.map rstrip).lines) ++
        ((p.trim isBlob).block.prepend
          (key ++ [':'] ++ valueSep (p.trim isBlob).block.first)).lines := by
  have hvalue := canonicalValue_parts (a :=
    { key, rawValue := p.value, comments := leads ++ p.trailing.toList, preBlankLines
      indent, sep, literalPrefixLines := p.literal.rest.length }) hp.1 rfl rfl
  rw [canonicalAttr, emitCanonicalComments_append, emitCanonicalComments_leads hl,
    emitCanonicalComments_trailing hp.2.attachment, List.append_nil, hvalue,
    ← canonicalWithTrailing_valid hp hl]
  rfl

/-- The canonical attribute of a key line. -/
theorem canonical_line {p : ValueParts} {preBlankLines : List Line} {indent sep : Line}
    (hkey : IsKey key) (hsub : lower key ∉ subcommands) (hshape : subcommandShaped key = false)
    (hp : p.Valid (startsBlob key p.block.first)) (hgap : NoGap p.block.first)
    (hpair : findInlinePair (maskClosedBlocks p.tail false (!startsBlob key p.block.first)) = none)
    (hl : ∀ c ∈ leads, OwnComment c) :
    ∃ g, CanonicalAttr
      { key, rawValue := p.value, comments := leads ++ p.trailing.toList, preBlankLines, indent, sep
        literalPrefixLines := p.literal.rest.length } g
      (contOf key (p.toLine (startsBlob key p.block.first))) := by
  have hblob := startsBlob_trim hp
  generalize hb : startsBlob key p.block.first = b at *
  have hp' := hp.trim
  obtain ⟨w, htail, hw⟩ := exists_rstrip p.tail
  obtain ⟨q', o', hwalk⟩ := hp.2.walk
  obtain ⟨o'', hwalk'⟩ := (htail ▸ hwalk).of_append hw (Nat.zero_le _)
  have hl' : ∀ c ∈ leads.map (trimComment []), OwnComment c := by
    intro c hc
    obtain ⟨d, hd, rfl⟩ := List.mem_map.mp hc
    exact (hl d hd).trim nofun
  have hleads : (leads.map (trimComment [])).flatMap emitFullLine =
      leads.flatMap fun c => (c.text.map rstrip).lines := by
    rw [List.flatMap_map]
    exact List.flatMap_congr fun c _ => emitFullLine_trimComment
  have hleads' : ((leads.map (trimComment [])).flatMap fun c => (c.text.map rstrip).lines) =
      leads.flatMap fun c => (c.text.map rstrip).lines := by
    rw [List.flatMap_map]
    exact List.flatMap_congr fun c _ => by rw [trimComment, map_rstrip_map]
  have hpair' : findInlinePair (maskClosedBlocks (p.trim b).tail false (!b)) = none := by
    rw [htail] at hpair
    exact findInlinePair_of_append hwalk' (head_ne_of_isSpace hw) hpair
  have hnogap : NoGap (p.trim b).block.first := by
    cases b with
    | true =>
      obtain ⟨t, ht⟩ := startsBlob_open hblob
      rw [← ht]
      exact fun c hc => by cases hc; decide
    | false =>
      obtain ⟨literal, tail, trailing, opens⟩ := p
      have hempty : literal = ⟨[], []⟩ := hp.1
      subst hempty
      exact hp.2.noGap_trim (noGap_of_withTrailing hgap)
  have hcont : contOf key (p.toLine b) = contOf key ((p.trim b).toLine b) := by
    have hodd : oddQuotes (maskClosedBlocks p.tail false (!b)) =
        oddQuotes (maskClosedBlocks (rstrip p.tail) false (!b)) := by
      conv => lhs; rw [htail]
      exact oddQuotes_of_append hwalk' hw
    simp only [contOf, ValueParts.toLine, hodd]
    rfl
  refine ⟨{ key, rawValue := (p.trim b).value
            comments := leads.map (trimComment []) ++ (p.trim b).trailing.toList
            sep := valueSep (p.trim b).block.first
            literalPrefixLines := p.literal.rest.length }, ?_, ?_, ?_, rfl, ?_, ?_, rfl⟩
  · rw [hcont]
    have hscanned := @ScannedAttr.line key [] (valueSep (p.trim b).block.first) [] _ _ hkey hsub hshape
      (hblob.symm ▸ hp') hnogap (hblob.symm ▸ hpair') rfl (valueSep_all (v := (p.trim b).block.first))
      nofun hl'
    rwa [hblob] at hscanned
  · rw [canonicalAttr_line _ _ _ _ hp hl, ← hleads, preserveAttr_line hp' hl']
    simp
  · have h := canonicalAttr_line key [] (valueSep (p.trim b).block.first) [] hp' hl'
    rw [ValueParts.trim_trim, hleads'] at h
    rw [canonicalAttr_line _ _ _ _ hp hl, ← h]
    rfl
  · exact (canonicalValue_parts hp.1 rfl rfl).symm
  · exact (canonicalValue_parts (p := p.trim b) hp.1 rfl rfl).trans (by
      simp [ValueParts.trim, ValueParts.value])

/-- The canonical attribute of one whose value goes on. -/
theorem CanonicalAttr.addLine {inQuote : Bool} {g : RawAttr} (hg : CanonicalAttr a g (some inQuote))
    (ha : ScannedAttr a (some inQuote)) (hother : OtherLine l)
    (hopens : (splitTrailingComment l inQuote).opensComment = false)
    (hpair : findInlinePair (maskClosedBlocks l inQuote) inQuote = none) :
    CanonicalAttr { a with rawValue := a.rawValue.addLine l }
      { g with rawValue := g.rawValue.addLine (rstrip l) }
      (some (inQuote ^^ oddQuotes (maskClosedBlocks l inQuote))) := by
  obtain ⟨hscanned, hlines, hagain, hkey, hvalue, htrimmed, hliteral⟩ := hg
  obtain ⟨-, hn⟩ := ha.fullTail nofun
  obtain ⟨-, hn'⟩ := hscanned.fullTail nofun
  obtain ⟨w, hl, hw⟩ := exists_rstrip l
  obtain ⟨q', o', hwalk⟩ := exists_walk_line hopens
  obtain ⟨o'', hwalk'⟩ := (hl ▸ hwalk).of_append hw (Nat.zero_le _)
  have hodd : oddQuotes (maskClosedBlocks l inQuote) =
      oddQuotes (maskClosedBlocks (rstrip l) inQuote) := by
    conv => lhs; rw [hl]
    exact oddQuotes_of_append hwalk' hw
  have hpair' : findInlinePair (maskClosedBlocks (rstrip l) inQuote) inQuote = none := by
    rw [hl] at hpair
    exact findInlinePair_of_append hwalk' (head_ne_of_isSpace hw) hpair
  constructor
  · rw [hodd]
    exact hscanned.continued hother.rstrip (hwalk'.not_opens []) hpair'
  · rw [preserveAttr_addLine (hscanned.no_block nofun), hlines,
      canonicalAttr_addLine (ha.no_block nofun) hn]
  · rw [canonicalAttr_addLine (hscanned.no_block nofun) hn', hagain, rstrip_rstrip,
      canonicalAttr_addLine (ha.no_block nofun) hn]
  · exact hkey
  · rw [canonicalValue_addLine hn, ← hvalue]
  · rw [canonicalValue_addLine hn', htrimmed, rstrip_rstrip]
  · exact hliteral

/-- The canonical attribute of one whose last line opens a comment. -/
theorem CanonicalAttr.addComment {inQuote : Bool} {g : RawAttr} {tc : Comment}
    (hg : CanonicalAttr a g (some inQuote)) (ha : ScannedAttr a (some inQuote))
    (hother : OtherLine (v ++ tc.textLines.first))
    (htc : Trailing inQuote true true v (some tc) true)
    (hpair : findInlinePair (maskClosedBlocks (v ++ tc.indent) inQuote) inQuote = none)
    (hv : rstrip v ≠ []) :
    CanonicalAttr { a with rawValue := a.rawValue.addLine v, comments := a.comments ++ [tc] }
      { g with rawValue := g.rawValue.addLine (rstrip v)
               comments := g.comments ++ [trimTrailing [' '] tc] } none := by
  obtain ⟨hscanned, hlines, hagain, hkey, hvalue, htrimmed, hliteral⟩ := hg
  obtain ⟨-, hn⟩ := ha.fullTail nofun
  obtain ⟨-, hn'⟩ := hscanned.fullTail nofun
  obtain ⟨w, hl, hw⟩ := exists_rstrip v
  obtain ⟨q', o', hwalk⟩ := htc.walk
  obtain ⟨o'', hwalk'⟩ := (hl ▸ hwalk).of_append hw (Nat.zero_le _)
  obtain ⟨hattachment, -, hblock⟩ := htc.trailing
  have hattachment' : (trimTrailing [' '] tc).attachment = .trailing := hattachment
  have hblock' : (trimTrailing [' '] tc).trailingBlock = true := hblock rfl
  have htrim := htc.trim
  have hgap : lineGap true (rstrip v) = [' '] := by simp [lineGap, hv]
  rw [hgap, Option.map_some] at htrim
  have hblank : (rstrip v).all isSpace = false := by
    rw [Bool.eq_false_iff, Ne, ← rstrip_eq_nil, rstrip_rstrip]
    exact hv
  have hother' : OtherLine (rstrip v ++ (trimTrailing [' '] tc).textLines.first) := by
    rw [hl, List.append_assoc] at hother
    exact (hother.of_append hblank).append_blank
  have hpair' : findInlinePair
      (maskClosedBlocks (rstrip v ++ (trimTrailing [' '] tc).indent) inQuote) inQuote = none := by
    have hindent : tc.indent.all isSpace = true := by
      cases htc with
      | opens hs =>
        obtain ⟨-, tail, htail, -⟩ := hs.opens
        exact all_isSpace_of_isBlank (hs.walk (by simp [htail, opener])).2.2
    rw [hl, List.append_assoc] at hpair
    have hnone := findInlinePair_of_append hwalk'
      (head_ne_of_isSpace (by rw [List.all_append, hw, hindent]; rfl)) hpair
    have hmask : maskClosedBlocks (rstrip v ++ [' ']) inQuote =
        maskClosedBlocks (rstrip v) inQuote ++ [' '] := by
      rw [maskClosedBlocks, maskFrom_walk hwalk' (by simp), maskFrom_char (by decide)
        (fun h => absurd h.2.2 (by decide))]
      rfl
    exact (congrArg (findInlineFrom 0 inQuote) hmask).trans
      (findInlineFrom_append_none (by decide) hnone)
  constructor
  · exact hscanned.commented hother' htrim hpair'
  · rw [preserveAttr_addComment (hscanned.no_block nofun) hattachment' hblock', hlines,
      canonicalAttr_addComment (ha.no_block nofun) hn hattachment (hblock rfl)]
    simp [withTrailing, trimTrailing, Comment.textLines]
  · rw [canonicalAttr_addComment (hscanned.no_block nofun) hn' hattachment' hblock', hagain,
      canonicalAttr_addComment (ha.no_block nofun) hn hattachment (hblock rfl), rstrip_rstrip,
      trimTrailing, map_rstrip_map]
  · exact hkey
  · have h := canonicalValue_addLine (l := v) hn
    rw [← hvalue] at h
    exact h.symm
  · have h := canonicalValue_addLine (l := rstrip v) hn'
    rw [htrimmed, rstrip_rstrip] at h
    exact h
  · exact hliteral

theorem ScannedAttr.canonical {cont : Option Bool} (h : ScannedAttr a cont) (hfull : FullTail a) :
    ∃ g, CanonicalAttr a g cont := by
  induction h with
  | line hkey hsub hshape hp hgap hpair _ _ _ hl =>
    exact canonical_line hkey hsub hshape hp hgap hpair hl
  | continued ha hother hopens hpair ih =>
    obtain ⟨g, hg⟩ := ih (ha.fullTail nofun).1
    exact ⟨_, hg.addLine ha hother hopens hpair⟩
  | @commented a q v tc ha hother htc hpair ih =>
    obtain ⟨g, hg⟩ := ih (ha.fullTail nofun).1
    exact ⟨_, hg.addComment ha hother htc hpair (hfull v (by simp [Block.addLine]))⟩

end Dsl41.Jil
