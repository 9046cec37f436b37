import Dsl41.Jil.Elements

/-!
# The preserve mode writes the text back

Each turn of the loop moves the lines it takes into the tree: the lines of the state, written by
the preserve renderer, grow by exactly these (`scanLine_sound`). At the end they are the lines of
the text. On the way the elements are seen to be as the grammar says.
-/

namespace Dsl41.Jil

open Dsl41.Infra

/-- The lines that are in the state. -/
def ScanState.lines (s : ScanState) : List Line :=
  (s.done ++ s.cur.toList).flatMap preserveStatement ++ s.pendC.flatMap emitFullLine ++ s.pendB

/-- What is in the state is as scanned. What the last statement leaves open is what the loop
carries, unless a comment or a blank line has come since. -/
structure ScanInv (s : ScanState) : Prop where
  done : ∀ stmt ∈ s.done, ∃ cont, ScannedStatement stmt cont
  cur : ∀ stmt ∈ s.cur, ∃ cont, ScannedStatement stmt cont ∧
    (s.pendC = [] → s.pendB = [] → s.cont = cont)
  cont : s.cur = none → s.cont = none
  pendC : ∀ c ∈ s.pendC, OwnComment c
  pendB : BlankLines s.pendB

/-- A turn of the loop takes `k + 1` lines and adds them to the state's. -/
def Takes (s s' : ScanState) (line : Line) (rest : List Line) (k : Nat) : Prop :=
  ∃ chunk more, line :: rest = chunk ++ more ∧ chunk.length = k + 1 ∧ s'.lines = s.lines ++ chunk

variable {s s' : ScanState} {i k : Nat} {line indent body key after : Line} {rest : List Line}

theorem split_gap (line : Line) :
    line = line.takeWhile isBlank ++ line.dropWhile isBlank :=
  List.takeWhile_append_dropWhile.symm

theorem scanBlank_sound (hi : ScanInv s) (h : line.all isSpace = true) :
    ScanInv { s with pendB := s.pendB ++ [line], cont := none } ∧
      Takes s { s with pendB := s.pendB ++ [line], cont := none } line rest 0 := by
  refine ⟨⟨hi.done, fun stmt hs => ?_, fun _ => rfl, hi.pendC, ?_⟩, [line], rest, rfl, rfl, ?_⟩
  · obtain ⟨cont, hcont, -⟩ := hi.cur stmt hs
    exact ⟨cont, hcont, fun _ hb => absurd hb (by simp)⟩
  · intro l hl
    obtain hl | hl := List.mem_append.mp hl
    · exact hi.pendB l hl
    · rwa [List.mem_singleton.mp hl]
  · simp [ScanState.lines]

theorem pend_sound {c : Comment} (hi : ScanInv s) (hc : OwnComment c)
    (hpre : c.preBlankLines = s.pendB) :
    ScanInv (s.pend c) ∧ (s.pend c).lines = s.lines ++ c.textLines.lines := by
  refine ⟨⟨hi.done, fun stmt hs => ?_, fun _ => rfl, fun x hx => ?_, nofun⟩, ?_⟩
  · obtain ⟨cont, hcont, -⟩ := hi.cur stmt hs
    exact ⟨cont, hcont, fun hc _ => absurd hc (by simp [ScanState.pend])⟩
  · obtain hx | hx := List.mem_append.mp hx
    · exact hi.pendC x hx
    · rwa [List.mem_singleton.mp hx]
  · simp [ScanState.lines, ScanState.pend, emitFullLine, hpre]

theorem scanHash_sound (hi : ScanInv s) (h : ['#'] <+: line.dropWhile isBlank) :
    let c : Comment := { text := ⟨line.dropWhile isBlank, []⟩, attachment := .leading
                         preBlankLines := s.pendB, indent := line.takeWhile isBlank }
    ScanInv (s.pend c) ∧ Takes s (s.pend c) line rest 0 := by
  intro c
  obtain ⟨text, htext⟩ := h
  have hc : OwnComment c := by
    have : OwnComment { text := ⟨'#' :: text, []⟩, attachment := .leading, preBlankLines := s.pendB
                        indent := line.takeWhile isBlank } :=
      .hash List.all_takeWhile hi.pendB
    rwa [← List.singleton_append, htext] at this
  obtain ⟨hinv, hlines⟩ := pend_sound hi hc rfl
  refine ⟨hinv, [line], rest, rfl, rfl, ?_⟩
  rw [hlines]
  simp [c, Comment.textLines, Block.prepend, Block.lines, List.takeWhile_append_dropWhile]

theorem scanComment_sound {c : Comment} (hi : ScanInv s) (h : opener <+: line.dropWhile isBlank)
    (hc : scanBlockComment i (line.takeWhile isBlank) (line.dropWhile isBlank) s.pendB rest =
      .ok (c, k)) :
    ScanInv (s.pend c) ∧ Takes s (s.pend c) line rest k := by
  rw [scanBlockComment_eq_ok h.length_le] at hc
  obtain ⟨text, post, htext, hpost, rfl, rfl, more, hmore⟩ := hc
  obtain ⟨hfirst, hrest⟩ := List.cons.inj hmore
  have hopens : opener <+: text.first := by
    obtain ⟨w, hw⟩ := text.first_appendLast_cons (t := post)
    rw [hfirst, hw] at h
    exact List.prefix_of_prefix_length_le h ⟨w, rfl⟩ htext.1
  obtain ⟨hinv, hlines⟩ := pend_sound hi
    (OwnComment.block List.all_takeWhile hi.pendB htext hopens hpost) rfl
  refine ⟨hinv, _, more, ?_, ?_, hlines⟩
  · rw [hrest]
    simp [Comment.textLines, Block.prepend, Block.lines, ← hfirst, List.takeWhile_append_dropWhile]
  · simp [Comment.textLines, Block.prepend, Block.lines]

theorem scanBlockComment_indent {c : Comment} {gap : Line} {preBlankLines : List Line}
    (h : scanBlockComment i gap body preBlankLines rest = .ok (c, k)) : c.indent = gap := by
  rw [scanBlockComment] at h
  split at h
  · cases h
  · split at h
    · cases h
      rfl
    · cases h

/-! ## Key lines -/

theorem startsBlob_of_mem {candidate : Line} (h : lower key ∈ subcommands) :
    startsBlob key candidate = false := by
  rw [startsBlob, Bool.and_eq_false_iff]
  refine .inl (decide_eq_false fun hk => ?_)
  rw [hk] at h
  exact absurd h (by decide)

theorem preserveHeader_eq {sep v : Line} {preBlankLines : List Line} {comments : List Comment}
    {attrs : List RawAttr} {dateLines : List Line} {header : Header}
    (h : scanHeader i v = .ok header) :
    preserveHeader
      { subcommand := key, subject := header.subject, jobTypeInline := header.jobTypeInline, attrs
        dateLines, comments, preBlankLines, indent, sep, inlineGap := header.inlineGap
        inlineKey := header.inlineKey, inlineSep := header.inlineSep } =
      indent ++ key ++ [':'] ++ sep ++ v := by
  rw [preserveHeader]
  conv => rhs; rw [scanHeader_text h]
  cases hj : header.jobTypeInline with
  | none => simp [hj]
  | some jobType => simp [hj]

theorem openStatement_sound {sep v : Line} {trailing : Option Comment} {opens : Bool}
    {header : Header} (hi : ScanInv s) (hkey : IsKey key) (hsub : lower key ∈ subcommands)
    (htrailing : Trailing false true false v trailing opens) (hheader : scanHeader i v = .ok header)
    (hgap : NoGap (withTrailing ⟨v, []⟩ trailing).first) (hindent : indent.all isBlank = true)
    (hsep : sep.all isBlank = true) :
    ScanInv (s.openStatement key indent sep header trailing) ∧
      (s.openStatement key indent sep header trailing).lines = s.lines ++
        ((withTrailing ⟨v, []⟩ trailing).prepend (indent ++ key ++ [':'] ++ sep)).lines := by
  refine ⟨⟨fun stmt hs => ?_, fun stmt hs => ?_, nofun, nofun, nofun⟩, ?_⟩
  · obtain hs | hs := List.mem_append.mp hs
    · exact hi.done stmt hs
    · obtain ⟨cont, hcont, -⟩ := hi.cur stmt (Option.mem_toList.mp hs)
      exact ⟨cont, hcont⟩
  · cases hs
    exact ⟨none, .header hkey hsub htrailing (scanHeader_index hheader) hgap hindent hsep hi.pendB
      hi.pendC, fun _ _ => rfl⟩
  · have hp : ValueParts.Valid ⟨⟨[], []⟩, v, trailing, opens⟩ false := ⟨rfl, htrailing⟩
    have hown : ownLine (s.pendC ++ trailing.toList) = s.pendC := by
      rw [ownLine_append, ownLine_leads hi.pendC]
      intro c hc
      rw [Option.mem_toList] at hc
      cases hc
      exact htrailing.trailing.1
    have hemit := emitWithTrailing_valid (l := indent ++ key ++ [':'] ++ sep) hp hi.pendC
    simp only [ScanState.lines, ScanState.openStatement, Option.toList_some, List.flatMap_append,
      List.flatMap_singleton, preserveStatement, hown, preserveHeader_eq hheader]
    simp only [ValueParts.value, Block.appendLast_single, List.nil_append] at hemit
    rw [hemit]
    simp [ValueParts.block, ValueParts.value]

/-- The checks an attribute line passes. -/
theorem checkAttr_eq_ok {v : ValueLine} {cur : JilStatement} (h : checkAttr s i key v = .ok cur) :
    subcommandShaped key = false ∧ s.cur = some cur ∧ cur.dateLines = [] ∧
      findInlinePair (maskClosedBlocks v.tailValue false (!v.blobOpen)) = none := by
  rw [checkAttr] at h
  split at h
  · cases h
  · next hshape =>
    split at h
    · cases h
    · next c hcur =>
      split at h
      · cases h
      · next hdate =>
        split at h
        · cases h
        · next hpair =>
          cases h
          exact ⟨by simpa using hshape, hcur, by simpa using hdate, hpair⟩

theorem scanAttr_sound {p : ValueParts} {sep : Line} {cur : JilStatement} (hi : ScanInv s)
    (hkey : IsKey key) (hsub : lower key ∉ subcommands)
    (hp : p.Valid (startsBlob key p.block.first)) (hgap : NoGap p.block.first)
    (hindent : indent.all isBlank = true) (hsep : sep.all isBlank = true)
    (hcheck : checkAttr s i key (p.toLine (startsBlob key p.block.first)) = .ok cur) :
    let attr : RawAttr :=
      { key, rawValue := p.value, comments := s.pendC ++ p.trailing.toList
        preBlankLines := s.pendB, indent, sep, literalPrefixLines := p.literal.rest.length }
    let s' : ScanState :=
      { s with cur := some { cur with attrs := cur.attrs ++ [attr] }, pendC := [], pendB := []
               cont := contOf key (p.toLine (startsBlob key p.block.first)) }
    ScanInv s' ∧ s'.lines = s.lines ++
      (p.block.prepend (indent ++ key ++ [':'] ++ sep)).lines := by
  intro attr s'
  obtain ⟨hshape, hcur, hdate, hpair⟩ := checkAttr_eq_ok hcheck
  refine ⟨⟨hi.done, fun stmt hs => ?_, nofun, nofun, nofun⟩, ?_⟩
  · cases hs
    obtain ⟨cont, hcont, -⟩ := hi.cur cur hcur
    exact ⟨_, .attr hcont hdate (.line hkey hsub hshape hp hgap hpair hindent hsep hi.pendB
      hi.pendC), fun _ _ => rfl⟩
  · simp only [ScanState.lines, s', hcur, Option.toList_some, List.flatMap_append,
      List.flatMap_singleton, preserveStatement, hdate, attr, preserveAttr_line hp hi.pendC]
    simp
    rfl

theorem scanKeyLine_sound (hi : ScanInv s) (hkey : IsKey key)
    (hindent : indent.all isBlank = true) (hline : line = indent ++ (key ++ ':' :: after))
    (h : scanKeyLine s i indent key after rest = .ok (s', k)) :
    ScanInv s' ∧ Takes s s' line rest k := by
  rw [scanKeyLine, bind_eq_ok] at h
  obtain ⟨V, hV, h⟩ := h
  obtain ⟨p, hp, rfl, more, hmore⟩ := scanValue_sound hV
  obtain ⟨hcandidate, hrest⟩ := List.cons.inj hmore
  have hline' : line = indent ++ key ++ [':'] ++ after.takeWhile isBlank ++ p.block.first := by
    rw [← hcandidate, hline]
    conv => lhs; rw [split_gap after]
    simp
  have htake : line :: rest =
      (p.block.prepend (indent ++ key ++ [':'] ++ after.takeWhile isBlank)).lines ++ more := by
    rw [hline', hrest]
    simp [Block.prepend, Block.lines]
  have hgap : NoGap p.block.first := hcandidate ▸ noGap_dropWhile after
  rw [hcandidate] at hp h
  split at h
  · next hsub =>
    obtain ⟨header, hheader, h⟩ := bind_eq_ok.mp h
    cases h
    rw [startsBlob_of_mem hsub] at hp hheader
    obtain ⟨hliteral, htrailing⟩ := hp
    have hempty : p.literal = ⟨[], []⟩ := hliteral
    have hvalue : p.value = ⟨p.tail, []⟩ := by rw [ValueParts.value, hempty]; rfl
    rw [ValueParts.block, hvalue] at hgap htake
    have hfirst : (p.toLine false).value.first = p.tail := by rw [ValueParts.toLine, hvalue]
    rw [hfirst] at hheader
    obtain ⟨hinv, hlines⟩ := openStatement_sound hi hkey hsub htrailing hheader hgap hindent
      (List.all_takeWhile (l := after))
    exact ⟨hinv, _, more, htake, by simp [ValueParts.toLine, ValueParts.block, hvalue,
      Block.lines, Block.prepend], hlines⟩
  · next hsub =>
    obtain ⟨cur, hcur, h⟩ := bind_eq_ok.mp h
    cases h
    obtain ⟨hinv, hlines⟩ := scanAttr_sound hi hkey hsub hp hgap hindent
      (List.all_takeWhile (l := after)) hcur
    exact ⟨hinv, _, more, htake, by simp [ValueParts.toLine, Block.lines, Block.prepend], hlines⟩

/-! ## Other lines -/

/-- The open attribute is the last of the statement in hand. -/
theorem ScannedStatement.last {stmt : JilStatement} {inQuote : Bool}
    (h : ScannedStatement stmt (some inQuote)) :
    ∃ stmt' cont a, stmt = { stmt' with attrs := stmt'.attrs ++ [a] } ∧
      ScannedStatement stmt' cont ∧ stmt'.dateLines = [] ∧ ScannedAttr a (some inQuote) := by
  cases h with
  | attr hstmt hdate ha => exact ⟨_, _, _, rfl, hstmt, hdate, ha⟩

/-- What the open attribute becomes is the state's last lines. -/
theorem updateLast_sound {inQuote : Bool} {cont : Option Bool} {chunk : List Line}
    {f : RawAttr → RawAttr} (hi : ScanInv s) (hc : s.pendC = []) (hb : s.pendB = [])
    (hcont : s.cont = some inQuote)
    (hf : ∀ a, ScannedAttr a (some inQuote) →
      ScannedAttr (f a) cont ∧ preserveAttr (f a) = preserveAttr a ++ chunk) :
    ScanInv { s.updateLast f with cont } ∧
      ({ s.updateLast f with cont } : ScanState).lines = s.lines ++ chunk := by
  cases hcur : s.cur with
  | none => exact absurd (hcont ▸ hi.cont hcur) nofun
  | some cur =>
    obtain ⟨q, hscanned, hq⟩ := hi.cur cur hcur
    rw [hq hc hb] at hcont
    subst hcont
    obtain ⟨stmt, cont', a, rfl, hstmt, hdate, ha⟩ := hscanned.last
    obtain ⟨hfa, hlines⟩ := hf a ha
    have hattrs : (stmt.attrs ++ [a]).modifyLast f = stmt.attrs ++ [f a] :=
      List.modifyLast_concat _ _ _
    refine ⟨⟨hi.done, fun x hx => ?_, ?_, hi.pendC, hi.pendB⟩, ?_⟩
    · simp only [ScanState.updateLast, hcur, Option.map_some, hattrs, Option.mem_some] at hx
      subst hx
      exact ⟨cont, .attr hstmt hdate hfa, fun _ _ => rfl⟩
    · simp [ScanState.updateLast, hcur]
    · simp only [ScanState.lines, ScanState.updateLast, hcur, Option.map_some, hattrs, hc, hb,
        Option.toList_some, List.flatMap_append, List.flatMap_singleton, preserveStatement, hdate,
        hlines]
      simp
      rfl

theorem scanContinuation_sound {inQuote : Bool} (hi : ScanInv s) (hc : s.pendC = [])
    (hb : s.pendB = []) (hcont : s.cont = some inQuote) (hother : OtherLine line)
    (h : scanContinuation s i line inQuote rest = .ok (s', k)) :
    ScanInv s' ∧ Takes s s' line rest k := by
  rw [scanContinuation] at h
  dsimp only at h
  split at h
  · cases h
  · next hpair =>
    cases hopens : (splitTrailingComment line inQuote).opensComment with
    | false =>
      simp only [hopens, Bool.false_eq_true, if_false] at h hpair
      cases h
      obtain ⟨hinv, hlines⟩ := updateLast_sound hi hc hb hcont fun a ha =>
        ⟨ha.continued hother hopens hpair,
          preserveAttr_addLine (ha.no_block nofun)⟩
      exact ⟨hinv, [line], rest, rfl, rfl, hlines⟩
    | true =>
      simp only [hopens, if_true] at h hpair
      obtain ⟨⟨tc, taken⟩, htc, h⟩ := bind_eq_ok.mp h
      cases h
      have hscan : scanTrailing i 0 true (splitTrailingComment line inQuote) rest =
          .ok (some { tc with attachment := .trailing, trailingBlock := true }, 0 + taken) := by
        rw [scanTrailing, if_pos hopens, List.drop_zero, Nat.add_zero, htc]
        rfl
      obtain ⟨htrailing, htaken, more, hmore⟩ := scanTrailing_sound rfl hscan
      rw [hopens] at htrailing
      rw [← scanBlockComment_indent htc] at hpair
      obtain ⟨hline, hrest⟩ := List.cons.inj hmore
      rw [hline] at hother
      obtain ⟨hinv, hlines⟩ := updateLast_sound hi hc hb hcont fun a ha =>
        ⟨ha.commented hother htrailing hpair, preserveAttr_addComment (ha.no_block nofun) rfl rfl⟩
      exact ⟨hinv, _, more, hmore, by rw [Nat.zero_add] at htaken; simp [htaken, Block.lines], hlines⟩

theorem scanDateRow_sound (hi : ScanInv s) (hcont : s.cont = none ∨ s.pendC ≠ [] ∨ s.pendB ≠ [])
    (hother : OtherLine line) (h : scanDateRow s i line = .ok (s', k)) :
    ScanInv s' ∧ Takes s s' line rest k := by
  rw [scanDateRow] at h
  split at h
  · next cur hcur =>
    split at h
    · next hdate =>
      obtain ⟨hdate, hc, hb⟩ := hdate
      cases h
      obtain ⟨q, hscanned, hq⟩ := hi.cur cur hcur
      have hnone : s.cont = none := by simpa [hc, hb] using hcont
      rw [← hq hc hb, hnone] at hscanned
      refine ⟨⟨hi.done, fun x hx => ?_, nofun, hi.pendC, hi.pendB⟩, [line], rest, rfl, rfl, ?_⟩
      · cases hx
        exact ⟨none, .dateRow hscanned hdate hother, fun _ _ => hnone⟩
      · simp only [ScanState.lines, hcur, hc, hb, Option.toList_some, List.flatMap_append,
          List.flatMap_singleton, preserveStatement]
        simp
        rfl
    · cases h
  · cases h

theorem scanOther_sound (hi : ScanInv s) (hother : OtherLine line)
    (h : scanOther s i line rest = .ok (s', k)) : ScanInv s' ∧ Takes s s' line rest k := by
  rw [scanOther] at h
  split at h
  · next inQuote hcont =>
    split at h
    · next hpend => exact scanContinuation_sound hi hpend.1 hpend.2 hcont hother h
    · next hpend =>
      refine scanDateRow_sound hi (.inr ?_) hother h
      by_contra hnot
      simp only [not_or, not_not] at hnot
      exact hpend hnot
  · next hcont => exact scanDateRow_sound hi (.inl hcont) hother h

/-! ## The loop -/

/-- A turn of the loop keeps what is in the state as scanned and takes the lines it says. -/
theorem scanLine_sound (hi : ScanInv s) (h : scanLine s i line rest = .ok (s', k)) :
    ScanInv s' ∧ Takes s s' line rest k := by
  rw [scanLine] at h
  dsimp only at h
  split at h
  · next hblank =>
    cases h
    exact scanBlank_sound hi hblank
  · next hblank =>
    split at h
    · next hhash =>
      cases h
      exact scanHash_sound hi (List.isPrefixOf_iff_prefix.mp hhash)
    · next hhash =>
      split at h
      · next hcomment =>
        obtain ⟨⟨c, taken⟩, hc, h⟩ := bind_eq_ok.mp h
        cases h
        exact scanComment_sound hi (List.isPrefixOf_iff_prefix.mp hcomment) hc
      · next hcomment =>
        split at h
        · next key after hkey =>
          obtain ⟨hiskey, hbody⟩ := keyOf_eq_some.mp hkey
          refine scanKeyLine_sound hi hiskey (List.all_takeWhile (l := line)) ?_ h
          rw [← hbody]
          exact split_gap line
        · next hkey =>
          have hother : OtherLine line :=
            ⟨by simpa using hblank, fun hp => hhash (List.isPrefixOf_iff_prefix.mpr hp),
              fun hp => hcomment (List.isPrefixOf_iff_prefix.mpr hp), hkey⟩
          exact scanOther_sound hi hother h

/-- The loop takes every line. `skip` lines are already taken by the turn before. -/
theorem scanLines_sound {skip : Nat} {ls : List Line} (hi : ScanInv s)
    (h : scanLines s i skip ls = .ok s') (hskip : skip ≤ ls.length) :
    ScanInv s' ∧ s'.lines = s.lines ++ ls.drop skip := by
  induction ls generalizing s i skip with
  | nil =>
    cases h
    exact ⟨hi, by simp⟩
  | cons line rest ih =>
    cases skip with
    | succ skip => exact ih hi h (Nat.le_of_succ_le_succ hskip)
    | zero =>
      rw [scanLines] at h
      obtain ⟨⟨t, k⟩, ht, h⟩ := bind_eq_ok.mp h
      obtain ⟨hit, chunk, more, hchunk, hlen, hlines⟩ := scanLine_sound hi ht
      have hle : k ≤ rest.length := by
        have := congrArg List.length hchunk
        simp only [List.length_cons, List.length_append] at this
        omega
      obtain ⟨hinv, hs'⟩ := ih hit h hle
      refine ⟨hinv, ?_⟩
      have hmore : rest.drop k = more := by
        rw [← List.drop_succ_cons (a := line), hchunk, ← hlen, List.drop_left]
      rw [hs', hlines, hmore, List.append_assoc, ← hchunk, List.drop_zero]

end Dsl41.Jil
