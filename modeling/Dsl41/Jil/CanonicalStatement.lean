import Dsl41.Jil.CanonicalAttr

/-!
# The canonical statement

A scanned statement has a canonical one that is scanned as well. Its header keeps the subject and
the trailing comment; an inline job type becomes an attribute of its own, and a closed comment that
ended the subject before it becomes the header's trailing comment.
-/

namespace Dsl41.Jil

open Dsl41.Infra

variable {key u v w : Line} {leads : List Comment} {pre : List Line} {trailing : Option Comment}
  {opens : Bool}

/-! ## The header's lines -/

/-- The canonical lines of a header. -/
def canonicalHeader (stmt : JilStatement) : List Line :=
  emitCanonicalComments stmt.comments ++
    canonicalWithTrailing (keyValue stmt.subcommand (canonicalSubject stmt)) [] stmt.comments

/-- Comments with blank lines before the first, or before what follows where there is none. -/
def putBefore (pre : List Line) (leads : List Comment) : List Comment × List Line :=
  match leads with
  | [] => ([], pre)
  | c :: rest => (trimComment pre c :: rest.map (trimComment []), [])

theorem putBefore_lines :
    (putBefore pre leads).1.flatMap emitFullLine ++ (putBefore pre leads).2 =
      pre ++ leads.flatMap fun c => (c.text.map rstrip).lines := by
  have hlines : ∀ pre c, emitFullLine (trimComment pre c) = pre ++ (c.text.map rstrip).lines := by
    intro pre c
    simp [emitFullLine, trimComment, Comment.textLines, Block.prepend]
  cases leads with
  | nil => simp [putBefore]
  | cons c rest => simp [putBefore, hlines, List.flatMap_map]

theorem putBefore_own (hl : ∀ c ∈ leads, OwnComment c) (hpre : BlankLines pre) :
    (∀ c ∈ (putBefore pre leads).1, OwnComment c) ∧ BlankLines (putBefore pre leads).2 := by
  cases leads with
  | nil => exact ⟨nofun, hpre⟩
  | cons c rest =>
    refine ⟨fun d hd => ?_, nofun⟩
    rcases List.mem_cons.mp hd with rfl | hd
    · exact (hl c List.mem_cons_self).trim hpre
    · obtain ⟨e, he, rfl⟩ := List.mem_map.mp hd
      exact (hl e (List.mem_cons_of_mem _ he)).trim nofun

theorem putBefore_canonical :
    ((putBefore pre leads).1.flatMap fun c => (c.text.map rstrip).lines) =
      leads.flatMap fun c => (c.text.map rstrip).lines := by
  cases leads with
  | nil => rfl
  | cons c rest => simp [putBefore, trimComment, map_rstrip_map, List.flatMap_map]

theorem emitCanonicalComments_header (hl : ∀ c ∈ leads, OwnComment c)
    (h : ∀ tc ∈ trailing, tc.attachment = .trailing) :
    emitCanonicalComments (leads ++ trailing.toList) =
      leads.flatMap fun c => (c.text.map rstrip).lines := by
  rw [emitCanonicalComments_append, emitCanonicalComments_leads hl,
    emitCanonicalComments_trailing fun c hc => h c (Option.mem_toList.mp hc), List.append_nil]

/-- The trailing comment is written trimmed, so trimming it first changes nothing. -/
theorem canonicalWithTrailing_trim {first gap : Line} {rest : List Line}
    (hl : ∀ c ∈ leads, OwnComment c) :
    canonicalWithTrailing first rest (leads ++ (trailing.map (trimTrailing gap)).toList) =
      canonicalWithTrailing first rest (leads ++ trailing.toList) := by
  simp only [canonicalWithTrailing, trailingPair_leads hl]
  cases trailing with
  | none => rfl
  | some tc =>
    cases hb : tc.trailingBlock <;> by_cases ha : tc.attachment = .trailing <;>
      simp [trailingPair, trimTrailing, ha, hb, map_rstrip_map]
    simp [Block.map]

/-- The lines of a header: its comments, then the subject with its trailing comment. -/
theorem header_lines (hsub : Trailing false true false (rstrip u)
      (trailing.map (trimTrailing (lineGap true (rstrip u)))) opens)
    (hl : ∀ c ∈ leads, OwnComment c) :
    canonicalWithTrailing (keyValue key (rstrip u)) [] (leads ++ trailing.toList) =
      ((withTrailing ⟨rstrip u, []⟩ (trailing.map (trimTrailing (lineGap true (rstrip u))))).prepend
        (key ++ [':'] ++ valueSep (withTrailing ⟨rstrip u, []⟩
          (trailing.map (trimTrailing (lineGap true (rstrip u))))).first)).lines := by
  have hp : ValueParts.Valid ⟨⟨[], []⟩, rstrip u,
      trailing.map (trimTrailing (lineGap true (rstrip u))), opens⟩ false := ⟨rfl, hsub⟩
  have hlines := @canonicalWithTrailing_valid _ key _ _ hp hl
  have hidem : ValueParts.trim ⟨⟨[], []⟩, rstrip u,
      trailing.map (trimTrailing (lineGap true (rstrip u))), opens⟩ false =
      ⟨⟨[], []⟩, rstrip u, trailing.map (trimTrailing (lineGap true (rstrip u))), opens⟩ :=
    ValueParts.trim_trim ⟨⟨[], []⟩, u, trailing, opens⟩
  rw [hidem, canonicalWithTrailing_trim hl] at hlines
  exact hlines

/-! ## The header -/

/-- A header without an inline pair. -/
def headerOf (key u : Line) (trailing : Option Comment) (sep : Line) (pre : List Line)
    (leads : List Comment) : JilStatement where
  subcommand := key
  subject := u
  attrs := []
  comments := (putBefore pre leads).1 ++ trailing.toList
  preBlankLines := (putBefore pre leads).2
  sep

section HeaderOf

variable {sep : Line} (hl : ∀ c ∈ leads, OwnComment c) (hpre : BlankLines pre)
  (htr : Trailing false true false u trailing opens)
  (hpair : findInlinePair (maskClosedBlocks u) = none)

include hpair in
theorem scanHeader_plain : scanHeader 0 u = .ok { subject := u } := by
  rw [scanHeader, hpair]

include hl hpre htr hpair in
theorem headerOf_scanned (hkey : IsKey key) (hsub : lower key ∈ subcommands)
    (hgap : NoGap (withTrailing ⟨u, []⟩ trailing).first) (hsep : sep.all isBlank = true) :
    ScannedStatement (headerOf key u trailing sep pre leads) none := by
  obtain ⟨hl', hpre'⟩ := putBefore_own hl hpre
  exact .header hkey hsub htr (scanHeader_plain hpair) hgap rfl hsep hpre' hl'

include hl hpre htr in
theorem headerOf_lines :
    preserveStatement (headerOf key u trailing sep pre leads) =
      pre ++ (leads.flatMap fun c => (c.text.map rstrip).lines) ++
        ((withTrailing ⟨u, []⟩ trailing).prepend (key ++ [':'] ++ sep)).lines := by
  obtain ⟨hl', -⟩ := putBefore_own hl hpre
  have hp : ValueParts.Valid ⟨⟨[], []⟩, u, trailing, opens⟩ false := ⟨rfl, htr⟩
  have hown : ownLine ((putBefore pre leads).1 ++ trailing.toList) = (putBefore pre leads).1 := by
    rw [ownLine_append, ownLine_leads hl']
    intro c hc
    rw [Option.mem_toList] at hc
    cases hc
    exact htr.trailing.1
  have hemit := emitWithTrailing_valid (l := key ++ [':'] ++ sep) hp hl'
  simp only [ValueParts.value, Block.appendLast_single, List.nil_append] at hemit
  have hheader : preserveHeader (headerOf key u trailing sep pre leads) = key ++ [':'] ++ sep ++ u := by
    simp [preserveHeader, headerOf]
  rw [preserveStatement, hheader]
  simp only [headerOf, hown, List.flatMap_nil, List.append_nil]
  rw [hemit, putBefore_lines]
  rfl

include hl hpre htr in
theorem headerOf_canonical :
    canonicalHeader (headerOf key u trailing sep pre leads) =
      (leads.flatMap fun c => (c.text.map rstrip).lines) ++
        canonicalWithTrailing (keyValue key (rstrip u)) [] (leads ++ trailing.toList) := by
  obtain ⟨hl', -⟩ := putBefore_own hl hpre
  have hattachment : ∀ tc ∈ trailing, tc.attachment = .trailing := by
    intro tc htc
    cases htc
    exact htr.trailing.1
  have hsubject : canonicalSubject (headerOf key u trailing sep pre leads) = rstrip u := by
    simp [canonicalSubject, headerOf]
  rw [canonicalHeader, hsubject]
  simp only [headerOf]
  rw [emitCanonicalComments_header hl' hattachment, putBefore_canonical]
  simp only [canonicalWithTrailing, trailingPair_leads hl', trailingPair_leads hl]

end HeaderOf

/-- The closed comment that ends a one-line form's subject, where the form has no trailing comment:
it is line-final once the job type has moved. -/
def subjectComment (stmt : JilStatement) : Option TrailingSplit :=
  let split := splitTrailingComment stmt.subject
  if stmt.jobTypeInline.isSome ∧ ¬ stmt.comments.any (·.attachment = .trailing) ∧
      split.commentText ≠ [] ∧ split.opensComment = false then some split
  else none

/-- The subject without that comment, right-trimmed. -/
def contentSubject (stmt : JilStatement) : Line :=
  match subjectComment stmt with
  | some split => rstrip split.value
  | none => rstrip stmt.subject

/-- Where that comment is moved, the subject before it is not empty and ends in no space. -/
def StableSubject (stmt : JilStatement) : Prop :=
  ∀ split ∈ subjectComment stmt, split.value ≠ [] ∧ rstrip split.value = split.value

theorem canonicalSubject_eq (stmt : JilStatement) :
    canonicalSubject stmt =
      match subjectComment stmt with
      | some split => split.value ++ [' '] ++ split.commentText
      | none => rstrip stmt.subject := by
  rw [canonicalSubject, subjectComment]
  by_cases hform : stmt.jobTypeInline.isSome ∧ ¬ stmt.comments.any (·.attachment = .trailing)
  · rw [if_pos hform]
    by_cases hsplit : (splitTrailingComment stmt.subject).commentText ≠ [] ∧
        (splitTrailingComment stmt.subject).opensComment = false
    · rw [if_pos ⟨hsplit.1, by rw [hsplit.2]; rfl⟩, if_pos ⟨hform.1, hform.2, hsplit⟩]
    · have hsplit' : ¬ ((splitTrailingComment stmt.subject).commentText ≠ [] ∧
          (!(splitTrailingComment stmt.subject).opensComment) = true) := by
        simpa using hsplit
      rw [if_neg hsplit', if_neg fun h => hsplit h.2.2]
  · rw [if_neg hform, if_neg fun h => hform ⟨h.1, h.2.1⟩]

/-- The canonical header of a statement. -/
structure CanonicalHeader (stmt g : JilStatement) (pre : List Line) : Prop where
  scanned : ScannedStatement g none
  attrs : g.attrs = []
  dateLines : g.dateLines = []
  lines : preserveStatement g = pre ++ canonicalHeader stmt
  subcommand : g.subcommand = stmt.subcommand
  inline : g.jobTypeInline = none
  subject : rstrip g.subject = contentSubject stmt
  again : StableSubject stmt → canonicalHeader g = canonicalHeader stmt

/-- A header whose subject stays as it is, but for its trailing spaces. -/
theorem canonicalHeader_plain {stmt : JilStatement} (hkey : IsKey stmt.subcommand)
    (hsub : lower stmt.subcommand ∈ subcommands) (hl : ∀ c ∈ leads, OwnComment c)
    (hpre : BlankLines pre) (hcomments : stmt.comments = leads ++ trailing.toList)
    (hnone : subjectComment stmt = none) (hgap : NoGap stmt.subject)
    (htr : Trailing false true false v trailing opens)
    (htr' : Trailing false true false (rstrip stmt.subject)
      (trailing.map (trimTrailing (lineGap true (rstrip stmt.subject)))) opens)
    (hpair : findInlinePair (maskClosedBlocks (rstrip stmt.subject)) = none) :
    ∃ g, CanonicalHeader stmt g pre := by
  have hattachment : ∀ tc ∈ trailing, tc.attachment = .trailing := by
    intro tc htc
    cases htc
    exact htr.trailing.1
  have hsubject : canonicalSubject stmt = rstrip stmt.subject := by
    rw [canonicalSubject_eq, hnone]
  have hheader : canonicalHeader stmt = (leads.flatMap fun c => (c.text.map rstrip).lines) ++
      canonicalWithTrailing (keyValue stmt.subcommand (rstrip stmt.subject)) []
        (leads ++ trailing.toList) := by
    rw [canonicalHeader, hsubject, hcomments, emitCanonicalComments_header hl hattachment]
  refine ⟨headerOf stmt.subcommand (rstrip stmt.subject)
    (trailing.map (trimTrailing (lineGap true (rstrip stmt.subject))))
    (valueSep (withTrailing ⟨rstrip stmt.subject, []⟩
      (trailing.map (trimTrailing (lineGap true (rstrip stmt.subject))))).first) pre leads,
    headerOf_scanned hl hpre htr' hpair hkey hsub (htr.noGap_trim hgap) valueSep_all, rfl, rfl, ?_, rfl,
    rfl, ?_, fun _ => ?_⟩
  · rw [headerOf_lines hl hpre htr', hheader, header_lines htr' hl, List.append_assoc]
  · rw [contentSubject, hnone]
    exact rstrip_rstrip
  · rw [headerOf_canonical hl hpre htr', hheader, rstrip_rstrip, canonicalWithTrailing_trim hl]

/-- A header whose subject loses its comment to the line. -/
theorem canonicalHeader_comment {stmt : JilStatement} {split : TrailingSplit}
    (hkey : IsKey stmt.subcommand) (hsub : lower stmt.subcommand ∈ subcommands)
    (hl : ∀ c ∈ leads, OwnComment c) (hpre : BlankLines pre) (hcomments : stmt.comments = leads)
    (hsome : subjectComment stmt = some split) (hgap : NoGap stmt.subject)
    (hpair : findInlinePair (maskClosedBlocks stmt.subject) = none) :
    ∃ g, CanonicalHeader stmt g pre := by
  have hcond := hsome
  rw [subjectComment] at hcond
  split at hcond
  · next hform =>
    obtain ⟨-, -, hne, hopens⟩ := hform
    obtain rfl := Option.some.inj hcond
    obtain ⟨hs, hparts⟩ := @splits_of_eq false true stmt.subject _ rfl
    generalize splitTrailingComment stmt.subject = r at *
    obtain ⟨value, gap, commentText, post, opensComment⟩ := r
    dsimp only at hne hopens hs hparts
    subst hopens
    obtain ⟨hwalk, hvalue, hgapAll⟩ := hs.walk hne
    obtain ⟨-, through, rfl, hcut⟩ := hs.closed hne
    obtain ⟨o', hwalk'⟩ := hwalk.of_append (all_isSpace_of_isBlank hgapAll) (Nat.zero_le _)
    have htext : rstrip (opener ++ through) = opener ++ through := rstrip_of_closer hcut
    let tc : Comment :=
      { text := ⟨opener ++ through, []⟩, attachment := .trailing, trailingBlock := false
        indent := lineGap true value }
    have htr : Trailing false true false value (some tc) false :=
      .closed hne (splits_closed hwalk'.lineGap hvalue lineGap_all hcut rfl)
    have hgap' : NoGap value := by
      intro c hc
      cases value with
      | nil => cases hc
      | cons d value => exact hgap c (by rw [← hparts]; exact hc)
    have hpair' : findInlinePair (maskClosedBlocks value) = none := by
      rw [← hparts, List.append_assoc, List.append_assoc] at hpair
      refine findInlinePair_of_append hwalk' ?_ hpair
      cases gap with
      | nil => simp [opener]
      | cons c gap =>
        have hc : c ≠ '*' := by
          rintro rfl
          exact absurd hgapAll (by simp [isBlank])
        simpa using hc
    have hfirst : NoGap (withTrailing ⟨value, []⟩ (some tc)).first := by
      change NoGap (value ++ (lineGap true value ++ ((opener ++ through) ++ [])))
      by_cases hnil : value = []
      · subst hnil
        exact fun c hc => by cases hc; decide
      · obtain ⟨c, cs, rfl⟩ := List.exists_cons_of_ne_nil hnil
        exact fun d hd => hgap' d hd
    let sep : Line := if value = [] then [' ', ' '] else [' ']
    have hsep : sep.all isBlank = true := by
      by_cases hnil : value = []
      · simp [sep, hnil, isBlank]
      · simp [sep, hnil, isBlank]
    have hheader : canonicalHeader stmt = (leads.flatMap fun c => (c.text.map rstrip).lines) ++
        [keyValue stmt.subcommand (value ++ [' '] ++ (opener ++ through))] := by
      have hpairs := @trailingPair_leads _ [] hl
      rw [List.append_nil] at hpairs
      rw [Jil.canonicalHeader, canonicalSubject_eq, hsome, hcomments, emitCanonicalComments_leads hl,
        canonicalWithTrailing, hpairs]
      rfl
    refine ⟨headerOf stmt.subcommand value (some tc) sep pre leads,
      headerOf_scanned hl hpre htr hpair' hkey hsub hfirst hsep, rfl, rfl, ?_, rfl, rfl, ?_,
      fun hstable => ?_⟩
    · rw [headerOf_lines hl hpre htr, hheader, List.append_assoc]
      by_cases hnil : value = []
      · simp [withTrailing, tc, sep, hnil, lineGap, keyValue, Comment.textLines, Block.prepend,
          Block.lines]
      · simp [withTrailing, tc, sep, hnil, lineGap, keyValue, Comment.textLines, Block.prepend,
          Block.lines]
    · rw [contentSubject, hsome]
      rfl
    · obtain ⟨hvne, hvtrim⟩ := hstable _ hsome
      dsimp only at hvne hvtrim
      rw [headerOf_canonical hl hpre htr, hheader, hvtrim, canonicalWithTrailing,
        trailingPair_leads hl]
      simp [trailingPair, tc, htext, keyValue, hvne]
  · cases hcond

/-- The subject of a one-line form: a walk leads over it, it holds no pair of its own. -/
theorem scanHeader_subject {header : Header} (h : scanHeader 0 v = .ok header)
    (hinline : header.jobTypeInline ≠ none) (hwalk : Walk 0 false true v q' o') :
    (∃ o'', Walk 0 false true header.subject false o'') ∧
      findInlinePair (maskClosedBlocks header.subject) = none ∧ header.subject <+: v := by
  rw [scanHeader] at h
  dsimp only at h
  cases hm : findInlinePair (maskClosedBlocks v) with
  | none =>
    rw [hm] at h
    cases h
    exact absurd rfl hinline
  | some m =>
    rw [hm] at h
    obtain ⟨u, w, o'', rfl, hu, hstart⟩ := hwalk.pair hm
    rw [Nat.zero_add] at hstart
    have hsubject : header.subject = u := by
      dsimp only at h
      split at h
      · cases h
      · split at h
        · cases h
        · cases h
          simp [hstart]
    rw [hsubject]
    refine ⟨⟨o'', hu⟩, ?_, w, rfl⟩
    -- the pair starts with its gap, so the mask splits there
    obtain ⟨before, after, hstands⟩ := stands_of_findInlinePair hm
    have hw : w = m.gap ++ (m.key ++ ':' :: after) :=
      (List.append_inj hstands.text (by rw [hstands.start, hstart])).2
    have hhead : w.head? ≠ some '*' := by
      obtain ⟨c, gap, hgap⟩ := List.exists_cons_of_ne_nil hstands.gap_ne
      have hblank := hstands.gap
      rw [hgap, List.all_cons, Bool.and_eq_true] at hblank
      rw [hw, hgap]
      rintro ⟨⟩
      exact absurd hblank.1 (by decide)
    rw [findInlinePair, maskClosedBlocks, maskFrom_walk hu hhead] at hm
    have hlen : (maskClosedBlocks u).length = u.length :=
      (maskClosedBlocks_masks u false true).length_eq.symm
    exact findInlineFrom_before hm (hstart.trans (by rw [Nat.zero_add]; exact hlen.symm))

theorem scanHeader_none {header : Header} (h : scanHeader 0 v = .ok header)
    (hinline : header.jobTypeInline = none) :
    header.subject = v ∧ findInlinePair (maskClosedBlocks v) = none := by
  rw [scanHeader] at h
  dsimp only at h
  cases hm : findInlinePair (maskClosedBlocks v) with
  | none =>
    rw [hm] at h
    cases h
    exact ⟨rfl, rfl⟩
  | some m =>
    rw [hm] at h
    dsimp only at h
    split at h
    · cases h
    · split at h
      · cases h
      · cases h
        cases hinline

/-- A value whose split leaves no comment splits nowhere. -/
theorem splits_none_of_commentText
    (hsplit : (splitTrailingComment u).commentText = []) : Splits false true u [] [] [] false := by
  have hresult := splits_result u false true
  generalize hr : splitTrailingComment u false true = r at hresult hsplit
  cases hresult with
  | none => simpa [Splits] using hr
  | closed => cases hsplit
  | opens => cases hsplit

theorem noGap_of_isPrefix (h : u <+: v) (hv : NoGap v) : NoGap u := by
  obtain ⟨t, rfl⟩ := h
  intro c hc
  cases u with
  | nil => cases hc
  | cons d u => exact hv c hc

/-- Every header has a canonical one. -/
theorem ScannedStatement.canonicalHeader {stmt : JilStatement} (h : ScannedStatement stmt none)
    (hattrs : stmt.attrs = []) (hdate : stmt.dateLines = []) (hpre : BlankLines pre) :
    ∃ g, CanonicalHeader stmt g pre := by
  cases h with
  | attr => simp at hattrs
  | dateRow => simp at hdate
  | @header key indent sep v _ leads trailing opens header hkey hsub htr hheader hgap _ _ _ hl =>
    obtain ⟨q', o', hwalk⟩ := htr.walk
    have hgap := noGap_of_withTrailing hgap
    by_cases hinline : header.jobTypeInline = none
    · -- no inline pair: the subject is the value
      obtain ⟨hsubject, hpair⟩ := scanHeader_none hheader hinline
      obtain ⟨w, hv, hw⟩ := exists_rstrip v
      obtain ⟨o'', hwalk'⟩ := (hv ▸ hwalk).of_append hw (Nat.zero_le _)
      refine canonicalHeader_plain hkey hsub hl hpre rfl (by simp [subjectComment, hinline])
        (by rwa [hsubject]) htr (by rw [hsubject]; exact htr.trim) ?_
      rw [hsubject]
      rw [hv] at hpair
      exact findInlinePair_of_append hwalk' (head_ne_of_isSpace hw) hpair
    · obtain ⟨⟨o'', hwalk'⟩, hpair, hprefix⟩ := scanHeader_subject hheader hinline hwalk
      have hgap' : NoGap header.subject := noGap_of_isPrefix hprefix hgap
      obtain ⟨w, hv, hw⟩ := exists_rstrip header.subject
      obtain ⟨o₁, hwalk₁⟩ := (hv ▸ hwalk').of_append hw (Nat.zero_le _)
      have hpair' : findInlinePair (maskClosedBlocks (rstrip header.subject)) = none := by
        have hpair := hpair
        rw [hv] at hpair
        exact findInlinePair_of_append hwalk₁ (head_ne_of_isSpace hw) hpair
      cases trailing with
      | some tc =>
        have hattachment := htr.trailing.1
        exact canonicalHeader_plain hkey hsub hl hpre rfl
          (by simp [subjectComment, hattachment]) hgap' htr (htr.trim_to hwalk') hpair'
      | none =>
        cases hcomment : subjectComment
            { subcommand := key, subject := header.subject, jobTypeInline := header.jobTypeInline
              attrs := [], comments := leads ++ (none : Option Comment).toList
              preBlankLines := ‹_›, indent, sep, inlineGap := header.inlineGap
              inlineKey := header.inlineKey, inlineSep := header.inlineSep } with
        | some split =>
          exact canonicalHeader_comment hkey hsub hl hpre (List.append_nil _) hcomment hgap' hpair
        | none =>
          refine canonicalHeader_plain hkey hsub hl hpre rfl hcomment hgap' htr ?_ hpair'
          have hsplit : (splitTrailingComment header.subject).commentText = [] := by
            by_contra hne
            have hany : ¬ (leads ++ (none : Option Comment).toList).any (·.attachment = .trailing) := by
              simp only [Option.toList_none, List.append_nil, List.any_eq_true, decide_eq_true_eq]
              rintro ⟨c, hc, hattachment⟩
              cases (hl c hc).leading.symm.trans hattachment
            rw [subjectComment, if_pos ⟨Option.isSome_iff_ne_none.mpr hinline, hany, hne,
              hwalk'.not_opens []⟩] at hcomment
            cases hcomment
          cases htr
          exact (Trailing.none (splits_none_of_commentText hsplit)).trim

end Dsl41.Jil
