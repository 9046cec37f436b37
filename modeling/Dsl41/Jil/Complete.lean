import Dsl41.Jil.RoundTrip

/-!
# What the grammar derives is scanned

The other direction of the preserve mode: the lines of an element of the grammar are scanned to
that element. Each lemma takes the loop over the lines of one element, whatever follows them.
-/

namespace Dsl41.Jil

open Dsl41.Infra

variable {s s' s'' : ScanState} {lines lines' more rest : List Line} {line : Line} {c : Comment}
  {b : Block}

/-- The lines take the loop from one state to another, whatever follows them. -/
def Scans (s : ScanState) (lines : List Line) (s' : ScanState) : Prop :=
  ∀ i rest, scanLines s i 0 (lines ++ rest) = scanLines s' (i + lines.length) 0 rest

theorem Scans.nil : Scans s [] s := fun _ _ => rfl

theorem Scans.append (h : Scans s lines s') (h' : Scans s' lines' s'') :
    Scans s (lines ++ lines') s'' := by
  intro i rest
  rw [List.append_assoc, h, h', List.length_append, Nat.add_assoc]

/-- The lines that a turn has taken are passed over. -/
theorem scanLines_skip : ∀ {more : List Line} {i : Nat},
    scanLines s i more.length (more ++ rest) = scanLines s (i + more.length) 0 rest
  | [], _ => rfl
  | _ :: more, i => by
    rw [List.length_cons, List.cons_append, scanLines, scanLines_skip, Nat.add_right_comm,
      Nat.add_assoc]

/-- A turn of the loop on the lines of a block. -/
theorem Scans.turn (h : ∀ i rest, scanLine s i b.first (b.rest ++ rest) = .ok (s', b.rest.length)) :
    Scans s b.lines s' := by
  intro i rest
  rw [Block.lines, List.cons_append, scanLines, h]
  change scanLines s' (i + 1) b.rest.length (b.rest ++ rest) = _
  rw [scanLines_skip, List.length_cons, Nat.add_right_comm, Nat.add_assoc]

theorem Scans.single (h : ∀ i rest, scanLine s i line rest = .ok (s', 0)) : Scans s [line] s' :=
  Scans.turn (b := ⟨line, []⟩) h

/-! ## Blank lines and comments -/

/-- Blank lines are kept; a first one closes the continuation. -/
theorem scans_blank (h : BlankLines lines) :
    ∃ cont, Scans s lines { s with pendB := s.pendB ++ lines, cont } := by
  induction lines generalizing s with
  | nil =>
    rw [List.append_nil]
    exact ⟨s.cont, .nil⟩
  | cons line lines ih =>
    have hline : Scans s [line] { s with pendB := s.pendB ++ [line], cont := none } := by
      refine .single fun i rest => ?_
      rw [scanLine, if_pos (h line List.mem_cons_self)]
    obtain ⟨cont, hlines⟩ := ih (fun l hl => h l (List.mem_cons_of_mem _ hl))
    have hboth := hline.append hlines
    dsimp only at hboth
    rw [List.append_assoc] at hboth
    exact ⟨cont, hboth⟩

/-- A line that starts, after its gap, with a character that is no space. -/
theorem scanLine_body {indent body : Line} {ch : Char} (hindent : indent.all isBlank = true)
    (hhead : body.head? = some ch) (hspace : isSpace ch = false) :
    (indent ++ body).all isSpace = false ∧ (indent ++ body).takeWhile isBlank = indent ∧
      (indent ++ body).dropWhile isBlank = body := by
  obtain ⟨body, rfl⟩ : ∃ t, body = ch :: t := by
    cases body with
    | nil => cases hhead
    | cons d t => exact ⟨t, by rw [Option.some.inj hhead]⟩
  have hgap : NoGap (ch :: body) := by
    intro d hd
    obtain rfl := Option.some.inj hd
    by_contra hblank
    rw [Bool.not_eq_false] at hblank
    exact nomatch hspace.symm.trans (isSpace_of_isBlank hblank)
  refine ⟨?_, takeWhile_gap hindent hgap⟩
  rw [List.all_append, List.all_cons, hspace, Bool.false_and, Bool.and_false]

/-- A comment on its own lines awaits its element. -/
theorem scans_comment (hc : OwnComment c) (hb : s.pendB = []) :
    Scans s (emitFullLine c) (s.pend c) := by
  have hpre : BlankLines c.preBlankLines := by cases hc <;> assumption
  obtain ⟨cont, hblank⟩ := scans_blank (s := s) hpre
  refine hblank.append (.turn fun i rest => ?_)
  rw [hb, List.nil_append]
  cases hc with
  | @hash indent text pre hindent =>
    obtain ⟨hall, htake, hdrop⟩ := scanLine_body hindent (show ('#' :: text).head? = _ from rfl)
      (by decide)
    have hfirst : (Comment.textLines { text := ⟨'#' :: text, []⟩, attachment := .leading,
                                       preBlankLines := pre, indent }).first =
        indent ++ '#' :: text := by simp [Comment.textLines, Block.prepend]
    rw [hfirst, scanLine, hall, htake, hdrop]
    simp [ScanState.pend, Comment.textLines, Block.prepend]
  | @block indent post text pre hindent _ htext hopens hpost =>
    obtain ⟨t, ht⟩ : ∃ t, (text.appendLast post).first = '/' :: '*' :: t := by
      obtain ⟨t, ht⟩ := text.first_appendLast_cons (t := post)
      obtain ⟨u, hu⟩ := hopens
      exact ⟨u ++ t, by rw [ht, ← hu]; rfl⟩
    obtain ⟨hall, htake, hdrop⟩ := scanLine_body hindent
      (show (text.appendLast post).first.head? = some '/' by rw [ht]; rfl) (by decide)
    have hscan : scanBlockComment i indent (text.appendLast post).first pre
        ((text.appendLast post).rest ++ rest) =
        .ok ({ text, attachment := .leading, preBlankLines := pre, indent, post },
          text.rest.length) := by
      rw [scanBlockComment_eq_ok (by rw [ht]; simp)]
      exact ⟨text, post, htext, hpost, rfl, rfl, rest, rfl⟩
    change scanLine _ i (indent ++ (text.appendLast post).first) _ = _
    rw [scanLine, hall, htake, hdrop, if_neg Bool.false_ne_true, if_neg (by rw [ht]; simp),
      if_pos (by rw [ht]; rfl)]
    change (scanBlockComment i indent _ pre ((text.appendLast post).rest ++ rest) >>= _) = _
    rw [hscan]
    simp [ScanState.pend, Comment.textLines, Block.prepend, bind, Except.bind]

theorem scans_comments {leads : List Comment} (hl : ∀ c ∈ leads, OwnComment c)
    (hb : s.pendB = []) :
    ∃ cont, Scans s (leads.flatMap emitFullLine) { s with pendC := s.pendC ++ leads, cont } := by
  induction leads generalizing s with
  | nil =>
    rw [List.append_nil]
    exact ⟨s.cont, .nil⟩
  | cons c leads ih =>
    have hc := scans_comment (hl c List.mem_cons_self) hb
    obtain ⟨cont, hleads⟩ := ih (s := s.pend c) (fun d hd => hl d (List.mem_cons_of_mem _ hd)) rfl
    refine ⟨cont, ?_⟩
    have hboth := hc.append hleads
    rw [ScanState.pend] at hboth
    dsimp only at hboth
    rw [List.append_assoc] at hboth
    rw [List.flatMap_cons]
    rwa [hb]

/-! ## Key lines -/

/-- What stands before a key line: its comments and blank lines. -/
theorem scans_before {leads : List Comment} {pre : List Line} (hl : ∀ c ∈ leads, OwnComment c)
    (hpre : BlankLines pre) (hc : s.pendC = []) (hb : s.pendB = []) :
    ∃ cont, Scans s (leads.flatMap emitFullLine ++ pre)
      { s with pendC := leads, pendB := pre, cont } := by
  obtain ⟨cont, hleads⟩ := scans_comments hl hb
  obtain ⟨cont', hblank⟩ := scans_blank (s := { s with pendC := s.pendC ++ leads, cont }) hpre
  refine ⟨cont', ?_⟩
  have hboth := hleads.append hblank
  dsimp only at hboth
  rwa [hc, hb, List.nil_append, List.nil_append] at hboth

theorem isSpace_of_isKeyStart {ch : Char} (h : isKeyStart ch = true) : isSpace ch = false := by
  have hrange : 65 ≤ ch.toNat ∧ ch.toNat ≤ 122 := by
    simp only [isKeyStart, Bool.or_eq_true, Bool.and_eq_true, decide_eq_true_eq, Char.le_def,
      UInt32.le_iff_toNat_le] at h
    rcases h with (h | h) | rfl
    · exact ⟨h.1, h.2.trans (by decide)⟩
    · exact ⟨le_trans (by decide) h.1, h.2⟩
    · decide
  simp [isSpace]
  omega

/-- A key line is scanned as one. -/
theorem scanLine_key {indent key sep : Line} {i : Nat} {first : Line}
    (hindent : indent.all isBlank = true) (hkey : IsKey key) :
    scanLine s i (indent ++ key ++ [':'] ++ sep ++ first) rest =
      scanKeyLine s i indent key (sep ++ first) rest := by
  obtain ⟨d, ds, rfl, hd, hds⟩ := hkey
  have hspace := isSpace_of_isKeyStart hd
  obtain ⟨hall, htake, hdrop⟩ := scanLine_body hindent
    (show ((d :: ds) ++ ':' :: (sep ++ first)).head? = some d from rfl) hspace
  have hline : indent ++ (d :: ds) ++ [':'] ++ sep ++ first =
      indent ++ ((d :: ds) ++ ':' :: (sep ++ first)) := by simp
  have hof : keyOf ((d :: ds) ++ ':' :: (sep ++ first)) = some (d :: ds, sep ++ first) :=
    keyOf_eq_some.mpr ⟨⟨d, ds, rfl, hd, hds⟩, rfl⟩
  have hhash : ['#'].isPrefixOf ((d :: ds) ++ ':' :: (sep ++ first)) = false := by
    have hne : '#' ≠ d := by
      rintro rfl
      exact absurd hd (by decide)
    change ('#' == d && _) = false
    rw [beq_false_of_ne hne, Bool.false_and]
  have hopen : opener.isPrefixOf ((d :: ds) ++ ':' :: (sep ++ first)) = false := by
    have hne : '/' ≠ d := by
      rintro rfl
      exact absurd hd (by decide)
    change ('/' == d && _) = false
    rw [beq_false_of_ne hne, Bool.false_and]
  rw [hline, scanLine, hall, htake, hdrop, if_neg Bool.false_ne_true]
  simp only [hhash, hopen, hof, Bool.false_eq_true, if_false]

/-- A turn of the loop on the lines of a key line. -/
theorem scanLine_keyLine (i : Nat) (rest : List Line) {p : ValueParts} {indent key sep : Line}
    (hkey : IsKey key) (hp : p.Valid (startsBlob key p.block.first)) (hgap : NoGap p.block.first)
    (hindent : indent.all isBlank = true) (hsep : sep.all isBlank = true) :
    scanLine s i (indent ++ key ++ [':'] ++ sep ++ p.block.first) (p.block.rest ++ rest) =
      if lower key ∈ subcommands then
        (scanHeader i p.value.first).map fun header =>
          (s.openStatement key indent sep header p.trailing, p.block.rest.length)
      else
        (checkAttr s i key (p.toLine (startsBlob key p.block.first))).map fun cur =>
          ({ s with
              cur := some { cur with attrs := cur.attrs ++ [
                { key, rawValue := p.value, comments := s.pendC ++ p.trailing.toList
                  preBlankLines := s.pendB, indent, sep
                  literalPrefixLines := p.literal.rest.length }] }
              pendC := [], pendB := []
              cont := contOf key (p.toLine (startsBlob key p.block.first)) },
            p.block.rest.length) := by
  obtain ⟨htake, hdrop⟩ := takeWhile_gap hsep hgap
  have hvalue : scanValue i key p.block.first (p.block.rest ++ rest) = .ok _ :=
    scanValue_complete hp rfl
  rw [scanLine_key hindent hkey, scanKeyLine, htake, hdrop, hvalue]
  change (if lower key ∈ subcommands then _ else _) = _
  split
  · change (scanHeader i p.value.first >>= _) = _
    cases scanHeader i p.value.first with
    | error => rfl
    | ok => rfl
  · cases checkAttr s i key (p.toLine (startsBlob key p.block.first)) with
    | error => rfl
    | ok => rfl

/-- The header of a statement. -/
theorem scans_header {stmt : JilStatement} (h : ScannedStatement stmt none)
    (hattrs : stmt.attrs = []) (hdate : stmt.dateLines = []) (hc : s.pendC = [])
    (hb : s.pendB = []) :
    Scans s (preserveStatement stmt) { done := s.done ++ s.cur.toList, cur := some stmt } := by
  cases h with
  | attr => simp at hattrs
  | dateRow => simp at hdate
  | @header key indent sep v pre leads trailing opens header hkey hsub htrailing hheader hgap
      hindent hsep hpre hl =>
    obtain ⟨cont, hbefore⟩ := scans_before hl hpre hc hb
    have hp : ValueParts.Valid ⟨⟨[], []⟩, v, trailing, opens⟩ false := ⟨rfl, htrailing⟩
    have hown : ownLine (leads ++ trailing.toList) = leads := by
      rw [ownLine_append, ownLine_leads hl]
      intro c hc
      rw [Option.mem_toList] at hc
      cases hc
      exact htrailing.trailing.1
    have hemit := emitWithTrailing_valid (l := indent ++ key ++ [':'] ++ sep) hp hl
    simp only [ValueParts.value, Block.appendLast_single, List.nil_append] at hemit
    rw [preserveStatement, preserveHeader_eq hheader]
    simp only [hown, List.flatMap_nil, List.append_nil]
    rw [hemit]
    refine hbefore.append (.turn fun i rest => ?_)
    have hturn := scanLine_keyLine i rest (s := { s with pendC := leads, pendB := pre, cont })
      (p := ⟨⟨[], []⟩, v, trailing, opens⟩) hkey ((startsBlob_of_mem hsub).symm ▸ hp) hgap hindent hsep
    rw [if_pos hsub, show (ValueParts.mk ⟨[], []⟩ v trailing opens).value.first = v from rfl,
      scanHeader_index hheader] at hturn
    exact hturn

/-! ## Attributes -/

theorem scanLine_other {i : Nat} (h : OtherLine line) :
    scanLine s i line rest = scanOther s i line rest := by
  have hhash : ['#'].isPrefixOf (line.dropWhile isBlank) = false := by
    rw [Bool.eq_false_iff, Ne, List.isPrefixOf_iff_prefix]
    exact h.notHash
  have hopen : opener.isPrefixOf (line.dropWhile isBlank) = false := by
    rw [Bool.eq_false_iff, Ne, List.isPrefixOf_iff_prefix]
    exact h.notComment
  rw [scanLine, h.notBlank]
  simp only [hhash, hopen, h.notKey, Bool.false_eq_true, if_false]

theorem updateLast_attrs {cur : JilStatement} {a : RawAttr} {f : RawAttr → RawAttr}
    (hcur : s.cur = some { cur with attrs := cur.attrs ++ [a] }) :
    s.updateLast f = { s with cur := some { cur with attrs := cur.attrs ++ [f a] } } := by
  rw [ScanState.updateLast, hcur, Option.map_some]
  simp only [List.modifyLast_concat]

/-- A continuation line goes to the open attribute. -/
theorem scans_continued {cur : JilStatement} {a : RawAttr} {inQuote : Bool}
    (hcur : s.cur = some { cur with attrs := cur.attrs ++ [a] }) (hcont : s.cont = some inQuote)
    (hc : s.pendC = []) (hb : s.pendB = []) (hother : OtherLine line)
    (hopens : (splitTrailingComment line inQuote).opensComment = false)
    (hpair : findInlinePair (maskClosedBlocks line inQuote) inQuote = none) :
    Scans s [line] { s with
      cur := some { cur with attrs := cur.attrs ++ [{ a with rawValue := a.rawValue.addLine line }] }
      cont := some (inQuote ^^ oddQuotes (maskClosedBlocks line inQuote)) } := by
  refine .single fun i rest => ?_
  rw [scanLine_other hother, scanOther, hcont]
  simp only [hc, hb, and_self, if_true]
  rw [scanContinuation]
  simp only [hopens, Bool.false_eq_true, if_false, hpair, updateLast_attrs hcur]
  rw [hc, hb]

/-- A continuation line that opens a comment closes the attribute. -/
theorem scans_commented {cur : JilStatement} {a : RawAttr} {inQuote : Bool} {v : Line}
    {tc : Comment} (hcur : s.cur = some { cur with attrs := cur.attrs ++ [a] })
    (hcont : s.cont = some inQuote) (hc : s.pendC = []) (hb : s.pendB = [])
    (hother : OtherLine (v ++ tc.textLines.first))
    (htc : Trailing inQuote true true v (some tc) true)
    (hpair : findInlinePair (maskClosedBlocks (v ++ tc.indent) inQuote) inQuote = none) :
    Scans s (withTrailing ⟨v, []⟩ (some tc)).lines { s with
      cur := some { cur with attrs := cur.attrs ++
        [{ a with rawValue := a.rawValue.addLine v, comments := a.comments ++ [tc] }] }
      cont := none } := by
  refine .turn fun i rest => ?_
  have hfirst : (withTrailing ⟨v, []⟩ (some tc)).first = v ++ tc.textLines.first := rfl
  obtain ⟨r, hr, hv, hopens, hscan⟩ := scanTrailing_complete (i := i) (k := 0) htc
    (show (withTrailing ⟨v, []⟩ (some tc)).first ::
      ((withTrailing ⟨v, []⟩ (some tc)).rest ++ rest).drop 0 = _ ++ rest from rfl)
  rw [hfirst] at hr
  rw [hfirst, scanLine_other hother, scanOther, hcont]
  simp only [hc, hb, and_self, if_true]
  rw [scanTrailing, if_pos hopens] at hscan
  obtain ⟨⟨tc', taken⟩, hblock, hscan⟩ := bind_eq_ok.mp hscan
  obtain ⟨htc', htaken⟩ := Prod.mk.inj (Except.ok.inj hscan)
  obtain rfl := Option.some.inj htc'
  rw [List.drop_zero, Nat.add_zero] at hblock
  rw [Nat.zero_add, Nat.zero_add] at htaken
  have hindent := scanBlockComment_indent hblock
  rw [scanContinuation, hr]
  simp only [hopens, if_true, hv, ← hindent, hpair]
  rw [← hindent] at hblock
  rw [hblock]
  simp only [bind, Except.bind, updateLast_attrs hcur]
  rw [hc, hb, htaken]

/-- An attribute of the statement in hand. -/
theorem scans_attr {a : RawAttr} {cont : Option Bool} {cur : JilStatement} (h : ScannedAttr a cont)
    (hcur : s.cur = some cur) (hdate : cur.dateLines = []) (hc : s.pendC = [])
    (hb : s.pendB = []) :
    Scans s (preserveAttr a)
      { s with cur := some { cur with attrs := cur.attrs ++ [a] }, cont } := by
  induction h with
  | @line key indent sep pre leads p hkey hsub hshape hp hgap hpair hindent hsep hpre hl =>
    obtain ⟨cont, hbefore⟩ := scans_before hl hpre hc hb
    rw [preserveAttr_line hp hl]
    refine hbefore.append (.turn fun i rest => ?_)
    have hturn := scanLine_keyLine i rest
      (s := { s with pendC := leads, pendB := pre, cont }) hkey hp hgap hindent hsep
    have hcheck : checkAttr { s with pendC := leads, pendB := pre, cont } i key
        (p.toLine (startsBlob key p.block.first)) = .ok cur := by
      rw [checkAttr, hshape]
      simp [hcur, hdate, ValueParts.toLine, hpair]
    rw [if_neg hsub, hcheck] at hturn
    rw [hc, hb]
    exact hturn
  | continued ha hother hopens hpair ih =>
    rw [preserveAttr_addLine (ha.no_block (by simp))]
    exact ih.append (scans_continued rfl rfl hc hb hother hopens hpair)
  | commented ha hother htc hpair ih =>
    obtain ⟨hattachment, -, hblock⟩ := htc.trailing
    rw [preserveAttr_addComment (ha.no_block (by simp)) hattachment (hblock rfl)]
    exact ih.append (scans_commented rfl rfl hc hb hother htc hpair)

/-! ## Statements and files -/

theorem preserveStatement_attr {stmt : JilStatement} {a : RawAttr} (h : stmt.dateLines = []) :
    preserveStatement { stmt with attrs := stmt.attrs ++ [a] } =
      preserveStatement stmt ++ preserveAttr a := by
  simp only [preserveStatement, preserveHeader, h]
  simp

theorem preserveStatement_dateRow {stmt : JilStatement} {row : Line} :
    preserveStatement { stmt with dateLines := stmt.dateLines ++ [row] } =
      preserveStatement stmt ++ [row] := by
  simp only [preserveStatement, preserveHeader]
  simp

/-- A statement. -/
theorem scans_statement {stmt : JilStatement} {cont : Option Bool} (h : ScannedStatement stmt cont)
    (hc : s.pendC = []) (hb : s.pendB = []) :
    Scans s (preserveStatement stmt)
      { done := s.done ++ s.cur.toList, cur := some stmt, cont } := by
  induction h with
  | header => exact scans_header (.header ‹_› ‹_› ‹_› ‹_› ‹_› ‹_› ‹_› ‹_› ‹_›) rfl rfl hc hb
  | @attr stmt cont cont' a hstmt hdate ha ih =>
    have hattr := scans_attr (s := { done := s.done ++ s.cur.toList, cur := some stmt, cont }) ha rfl
      hdate rfl rfl
    have hboth := ih.append hattr
    rwa [preserveStatement_attr hdate]
  | @dateRow stmt row hstmt hbody hother ih =>
    have hrow : Scans { done := s.done ++ s.cur.toList, cur := some stmt } [row]
        { done := s.done ++ s.cur.toList
          cur := some { stmt with dateLines := stmt.dateLines ++ [row] } } := by
      refine .single fun i rest => ?_
      rw [scanLine_other hother, scanOther]
      simp [scanDateRow, hbody]
    have hboth := ih.append hrow
    rwa [preserveStatement_dateRow]

theorem scans_statements {stmts : List JilStatement}
    (h : ∀ stmt ∈ stmts, ∃ cont, ScannedStatement stmt cont) (hc : s.pendC = [])
    (hb : s.pendB = []) :
    ∃ s', Scans s (stmts.flatMap preserveStatement) s' ∧
      s'.done ++ s'.cur.toList = s.done ++ s.cur.toList ++ stmts ∧ s'.pendC = [] ∧
        s'.pendB = [] := by
  induction stmts generalizing s with
  | nil => exact ⟨s, .nil, (List.append_nil _).symm, hc, hb⟩
  | cons stmt stmts ih =>
    obtain ⟨cont, hstmt⟩ := h stmt List.mem_cons_self
    obtain ⟨s', hs', hdone, hc', hb'⟩ := ih
      (s := { done := s.done ++ s.cur.toList, cur := some stmt, cont })
      (fun x hx => h x (List.mem_cons_of_mem _ hx)) rfl rfl
    exact ⟨s', (scans_statement hstmt hc hb).append hs', by rw [hdone]; simp, hc', hb'⟩

/-- The lines of a file of the grammar are scanned to it. -/
theorem scanLines_complete {jf : JilFile} (h : ScannedFile jf) :
    ∃ s, scanLines {} 0 0 (preserveLines jf) = .ok s ∧
      s.file jf.newlineStyle jf.finalNewline = jf := by
  obtain ⟨s₁, h₁, hdone, hc, hb⟩ := scans_statements (s := {}) h.statements rfl rfl
  have hleads : ∀ c ∈ jf.trailingComments.map ({ · with attachment := .leading }), OwnComment c := by
    intro c hc
    obtain ⟨d, hd, rfl⟩ := List.mem_map.mp hc
    exact (h.trailingComments d hd).1
  obtain ⟨cont, h₂⟩ := scans_comments hleads hb
  obtain ⟨cont', h₃⟩ := scans_blank
    (s := { s₁ with pendC := s₁.pendC ++ jf.trailingComments.map ({ · with attachment := .leading })
                    cont }) h.eofBlankLines
  have hscan := ((h₁.append h₂).append h₃) 0 []
  rw [List.append_nil, List.flatMap_map] at hscan
  refine ⟨_, hscan, ?_⟩
  have hfloating : (jf.trailingComments.map ({ · with attachment := .leading })).map
      (fun c : Comment => { c with attachment := .floating }) = jf.trailingComments := by
    rw [List.map_map]
    refine (List.map_congr_left fun c hc => ?_).trans (List.map_id _)
    rw [Function.comp_apply, id_eq, ← (h.trailingComments c hc).2]
  simp only [ScanState.file, hdone, hc, hb, List.nil_append, hfloating]
  rfl

/-! ## The text -/

/-- A line without line ends. -/
def NoEol (line : Line) : Prop := '\n' ∉ line ∧ '\r' ∉ line

/-- A text of lines that end in newlines is cut into them. -/
theorem linesOf_join (hne : lines ≠ []) (h : ∀ l ∈ lines, NoEol l) :
    linesOf .lf (join ['\n'] lines ++ ['\n']) = lines := by
  have hsuffix : NewlineStyle.lf.chars.isSuffixOf (join ['\n'] lines ++ ['\n']) = true :=
    List.isSuffixOf_iff_suffix.mpr ⟨_, rfl⟩
  rw [linesOf, if_neg (by simp), if_pos hsuffix]
  have hsplit := split_append_sep (l := join ['\n'] lines) NewlineStyle.lf.chars_ne_nil
    NewlineStyle.lf.chars_head
  rw [show NewlineStyle.lf.chars = ['\n'] from rfl] at hsplit ⊢
  rw [hsplit, List.dropLast_concat, split_join hne fun l hl => (h l hl).1]

theorem detectNewline_join (h : ∀ l ∈ lines, NoEol l) :
    detectNewline (join ['\n'] lines ++ ['\n']) = .ok .lf := by
  have hcr : '\r' ∉ join ['\n'] lines ++ ['\n'] := by
    rw [List.mem_append, not_or]
    refine ⟨fun hm => ?_, by decide⟩
    rcases mem_join hm with hm | ⟨l, hl, hm⟩
    · exact absurd hm (by decide)
    · exact (h l hl).2 hm
  have hcut : cut NewlineStyle.crlf.chars (join ['\n'] lines ++ ['\n']) = none := by
    cases hcut : cut NewlineStyle.crlf.chars (join ['\n'] lines ++ ['\n']) with
    | none => rfl
    | some p =>
      obtain ⟨happ, before, hthrough⟩ := cut_eq_some hcut
      refine absurd ?_ hcr
      rw [← happ, hthrough]
      simp [NewlineStyle.chars]
  rw [detectNewline, hcut, if_neg (by simp), if_neg hcr]

/-- The preserve mode's text of a file of the grammar is parsed to it. -/
theorem parse_renderPreserve {jf : JilFile} (h : ScannedFile jf) (hstyle : jf.newlineStyle = .lf)
    (hfinal : jf.finalNewline = decide (preserveLines jf ≠ [])) (heol : ∀ l ∈ preserveLines jf, NoEol l) :
    parse (renderPreserve jf) = .ok jf := by
  obtain ⟨s, hscan, hfile⟩ := scanLines_complete h
  rw [parse_eq_ok, renderPreserve, hstyle]
  rw [hstyle] at hfile
  split
  · next hnil =>
    rw [hnil] at hscan
    refine ⟨.lf, s, rfl, hscan, ?_⟩
    rw [← hfile, hfinal, hnil]
    rfl
  · next hne =>
    have hlf : NewlineStyle.lf.chars = ['\n'] := rfl
    have htext : (join ['\n'] (preserveLines jf) ++ ['\n'] ≠ [] &&
        ['\n'].isSuffixOf (join ['\n'] (preserveLines jf) ++ ['\n'])) = true := by
      rw [List.isSuffixOf_iff_suffix.mpr ⟨_, rfl⟩]
      simp
    rw [hfinal, decide_eq_true hne, if_pos rfl]
    refine ⟨.lf, s, detectNewline_join heol, ?_, ?_⟩
    · rw [hlf, linesOf_join hne heol]
      exact hscan
    · rw [hlf, htext, ← decide_eq_true hne, ← hfinal, hfile]

end Dsl41.Jil
