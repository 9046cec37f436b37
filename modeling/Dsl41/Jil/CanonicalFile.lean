import Dsl41.Jil.CanonicalSort

/-!
# The canonical file

Each statement of a scanned file has a canonical one, the header first and then the sorted
attributes and the trimmed date rows; the blocks of the file stand one blank line apart.
-/

namespace Dsl41.Jil

open Dsl41.Infra

variable {stmt : JilStatement} {pre : List Line} {a : RawAttr} {c : Char}

/-! ## The inline job type -/

/-- The attribute that an inline job type becomes. -/
def inlineAttr (stmt : JilStatement) : Option RawAttr :=
  stmt.jobTypeInline.map fun jobType => { key := stmt.inlineKey, rawValue := { first := jobType } }

/-- An inline job type that holds neither a comment nor a pair of its own. -/
def PlainInline (stmt : JilStatement) : Prop :=
  ∀ jobType ∈ stmt.jobTypeInline, (splitTrailingComment jobType).commentText = [] ∧
    findInlinePair (maskClosedBlocks jobType) = none

theorem scanHeader_inline {i : Nat} {v : Line} {header : Header} (h : scanHeader i v = .ok header) :
    ∀ jobType ∈ header.jobTypeInline, IsKey header.inlineKey ∧
      lower header.inlineKey = "job_type".toList ∧ NoGap jobType := by
  rw [scanHeader] at h
  dsimp only at h
  cases hm : findInlinePair (maskClosedBlocks v) with
  | none =>
    rw [hm] at h
    cases h
    intro m hm
    cases hm
  | some m =>
    rw [hm] at h
    obtain ⟨before, after, hstands⟩ := stands_of_findInlinePair hm
    dsimp only at h
    split at h
    · cases h
    · next hkey =>
      split at h
      · cases h
      · cases h
        rintro jobType ⟨⟩
        exact ⟨hstands.key, not_not.mp hkey, noGap_dropWhile _⟩

theorem canonicalAttr_inline {key jobType : Line} (hkey : IsKey key)
    (hlower : lower key = "job_type".toList) (hgap : NoGap jobType)
    (hsplit : (splitTrailingComment jobType).commentText = [])
    (hpair : findInlinePair (maskClosedBlocks jobType) = none) :
    ∃ g, CanonicalAttr { key, rawValue := { first := jobType } } g none := by
  have hblob : startsBlob key jobType = false := by
    rw [startsBlob, hlower]
    rfl
  have hp : ValueParts.Valid ⟨⟨[], []⟩, jobType, none, false⟩ false :=
    ⟨rfl, .none (splits_none_of_commentText hsplit)⟩
  have hshape : subcommandShaped key = false := by
    rw [subcommandShaped, hlower]
    rfl
  have hcont : contOf key (ValueParts.toLine ⟨⟨[], []⟩, jobType, none, false⟩ false) = none := by
    rw [contOf, hlower]
    rfl
  have hline := @canonical_line key [] ⟨⟨[], []⟩, jobType, none, false⟩ [] [] [' '] hkey
    (by rw [hlower]; decide) hshape
    (show ValueParts.Valid _ (startsBlob key jobType) from hblob.symm ▸ hp) hgap
    (show findInlinePair (maskClosedBlocks jobType false (!startsBlob key jobType)) = none by
      rw [hblob]; exact hpair) (by simp)
  rw [show (ValueParts.mk ⟨[], []⟩ jobType none false).block.first = jobType from rfl, hblob,
    hcont] at hline
  exact hline

/-! ## Statements -/

/-- The parts of a scanned statement. -/
structure StatementParts (stmt : JilStatement) : Prop where
  header : ScannedStatement { stmt with attrs := [], dateLines := [] } none
  attrs : ∀ a ∈ stmt.attrs, ∃ cont, ScannedAttr a cont
  dateLines : ∀ row ∈ stmt.dateLines, OtherLine row
  dateBody : stmt.dateLines ≠ [] → lower stmt.subcommand ∈ dateBodySubcommands
  inline : ∀ jobType ∈ stmt.jobTypeInline, IsKey stmt.inlineKey ∧
    lower stmt.inlineKey = "job_type".toList ∧ NoGap jobType

theorem ScannedStatement.parts {cont : Option Bool} (h : ScannedStatement stmt cont) :
    StatementParts stmt := by
  induction h with
  | header hkey hsub htrailing hheader hgap hindent hsep hpre hl =>
    exact ⟨.header hkey hsub htrailing hheader hgap hindent hsep hpre hl, nofun, nofun,
      fun h => absurd rfl h, scanHeader_inline hheader⟩
  | attr _ hdate ha ih =>
    refine ⟨ih.header, fun a h => ?_, ih.dateLines, ih.dateBody, ih.inline⟩
    rcases List.mem_append.mp h with h | h
    · exact ih.attrs a h
    · exact ⟨_, List.mem_singleton.mp h ▸ ha⟩
  | dateRow _ hbody hother ih =>
    refine ⟨ih.header, ih.attrs, fun row h => ?_, fun _ => hbody, ih.inline⟩
    rcases List.mem_append.mp h with h | h
    · exact ih.dateLines row h
    · exact List.mem_singleton.mp h ▸ hother

/-- Whether a line below an attribute may continue its value. -/
def MayContinue (a : RawAttr) : Prop :=
  lower a.key ∈ continuationAttrs ∧ (trailingPair a.comments).2 = none

theorem ScannedAttr.mayContinue {cont : Option Bool} (h : ScannedAttr a cont) (hcont : cont ≠ none) :
    MayContinue a := by
  refine ⟨?_, h.no_block hcont⟩
  induction h with
  | line =>
    by_contra hkey
    exact hcont (by simp [contOf, hkey])
  | continued _ _ _ _ ih => exact ih (by simp)
  | commented => exact absurd rfl hcont

/-- What of a statement the canonical mode keeps readable: its date rows are no comments or keys
once stripped and follow no attribute that they would continue, no continued value ends in a line of
spaces, and the inline job type is plain. -/
structure CleanStatement (stmt : JilStatement) : Prop where
  dateLines : ∀ row ∈ stmt.dateLines, OtherLine (strip row)
  last : stmt.dateLines ≠ [] → ∀ a ∈ (canonicalAttrs stmt).getLast?, ¬ MayContinue a
  fullTail : ∀ a ∈ stmt.attrs, FullTail a
  inline : PlainInline stmt

/-- The canonical statement of another. -/
structure CanonicalStatement (stmt g : JilStatement) (pre : List Line) : Prop where
  scanned : ∃ cont, ScannedStatement g cont
  lines : preserveStatement g = pre ++ canonicalStatement stmt
  subcommand : g.subcommand = stmt.subcommand
  inline : g.jobTypeInline = none
  subject : rstrip g.subject = contentSubject stmt
  dateLines : g.dateLines = stmt.dateLines.map strip
  attrs : List.Forall₂ (fun a b => b.key = a.key ∧ b.rawValue = canonicalValue a ∧
    canonicalValue b = b.rawValue) (canonicalAttrs stmt) g.attrs
  again : StableSubject stmt → canonicalStatement g = canonicalStatement stmt

theorem StatementParts.canonicalAttr (h : StatementParts stmt) (hclean : CleanStatement stmt) :
    ∀ a ∈ canonicalAttrs stmt, ∃ g cont, CanonicalAttr a g cont ∧ (¬ MayContinue a → cont = none) := by
  intro a ha
  have hmem : a ∈ (inlineAttr stmt).toList ++ stmt.attrs := canonicalSort_perm.mem_iff.mp ha
  rcases List.mem_append.mp hmem with hmem | hmem
  · rw [Option.mem_toList, inlineAttr, Option.map_eq_some_iff] at hmem
    obtain ⟨jobType, hjob, rfl⟩ := hmem
    obtain ⟨hkey, hlower, hgap⟩ := h.inline jobType hjob
    obtain ⟨hsplit, hpair⟩ := hclean.inline jobType hjob
    obtain ⟨g, hg⟩ := canonicalAttr_inline hkey hlower hgap hsplit hpair
    exact ⟨g, none, hg, fun _ => rfl⟩
  · obtain ⟨cont, hscanned⟩ := h.attrs a hmem
    obtain ⟨g, hg⟩ := hscanned.canonical (hclean.fullTail a hmem)
    refine ⟨g, cont, hg, fun hm => ?_⟩
    by_contra hcont
    exact hm (hscanned.mayContinue hcont)

/-- Attributes are added to a statement one by one. -/
theorem ScannedStatement.addAttrs {attrs gs : List RawAttr} {cont : Option Bool}
    (h : ScannedStatement stmt cont) (hdate : stmt.dateLines = [])
    (hattrs : List.Forall₂
      (fun a g => ∃ cont, CanonicalAttr a g cont ∧ (¬ MayContinue a → cont = none)) attrs gs) :
    ∃ cont', ScannedStatement { stmt with attrs := stmt.attrs ++ gs } cont' ∧
      (attrs = [] → cont' = cont) ∧ ∀ a ∈ attrs.getLast?, ¬ MayContinue a → cont' = none := by
  induction hattrs generalizing stmt cont with
  | nil =>
    rw [List.append_nil]
    exact ⟨cont, h, fun _ => rfl, nofun⟩
  | @cons a g attrs gs hg _ ih =>
    obtain ⟨cont₁, hg, hcont₁⟩ := hg
    obtain ⟨cont', hscanned, hnil, hlast⟩ := ih (.attr h hdate hg.scanned) hdate
    rw [List.append_assoc, List.singleton_append] at hscanned
    refine ⟨cont', hscanned, nofun, fun b hb hm => ?_⟩
    cases attrs with
    | nil =>
      obtain rfl := Option.some.inj hb
      exact (hnil rfl).trans (hcont₁ hm)
    | cons c attrs => exact hlast b hb hm

/-- Date rows are added one by one. -/
theorem ScannedStatement.addRows {rows : List Line} (h : ScannedStatement stmt none)
    (hbody : rows ≠ [] → lower stmt.subcommand ∈ dateBodySubcommands)
    (hrows : ∀ row ∈ rows, OtherLine row) :
    ScannedStatement { stmt with dateLines := stmt.dateLines ++ rows } none := by
  induction rows generalizing stmt with
  | nil => rwa [List.append_nil]
  | cons row rows ih =>
    have hfirst := ScannedStatement.dateRow h (hbody nofun) (hrows row List.mem_cons_self)
    have hall := ih hfirst (fun _ => hbody nofun) fun r hr => hrows r (List.mem_cons_of_mem _ hr)
    rwa [List.append_assoc, List.singleton_append] at hall

theorem strip_strip (l : Line) : strip (strip l) = strip l := by
  have hhead : (rstrip (l.dropWhile isSpace)).dropWhile isSpace = rstrip (l.dropWhile isSpace) := by
    obtain ⟨t, ht⟩ := rstrip_begins (l := l.dropWhile isSpace)
    rw [List.dropWhile_eq_self_iff]
    intro hne
    have hcons : l.dropWhile isSpace ≠ [] := by
      rintro hnil
      rw [hnil] at hne
      exact absurd hne (by decide)
    have hfirst := List.head_dropWhile_not isSpace hcons
    generalize rstrip (l.dropWhile isSpace) = r at ht hne ⊢
    cases r with
    | nil => cases hne
    | cons c r =>
      simp only [← ht, List.cons_append, List.head_cons] at hfirst
      simpa using hfirst
  rw [strip, strip, hhead, rstrip_rstrip]

theorem preserveStatement_eq {g : JilStatement} {attrs : List RawAttr} {rows : List Line}
    (hattrs : g.attrs = []) (hdate : g.dateLines = []) :
    preserveStatement { g with attrs := attrs, dateLines := rows } =
      preserveStatement g ++ attrs.flatMap preserveAttr ++ rows := by
  simp only [preserveStatement, hattrs, hdate, List.flatMap_nil, List.append_nil]
  rfl

theorem canonicalStatement_eq {stmt : JilStatement} :
    canonicalStatement stmt = canonicalHeader stmt ++ (canonicalAttrs stmt).flatMap canonicalAttr ++
      stmt.dateLines.map strip := rfl

theorem flatMap_congr_forall₂ {α β γ : Type*} {f : α → List γ} {g : β → List γ} {l : List α}
    {l' : List β} (h : List.Forall₂ (fun a b => f a = g b) l l') : l.flatMap f = l'.flatMap g := by
  induction h with
  | nil => rfl
  | cons hab _ ih => rw [List.flatMap_cons, List.flatMap_cons, hab, ih]

theorem exists_forall₂ {α β : Type*} {R : α → β → Prop} {l : List α} (h : ∀ a ∈ l, ∃ b, R a b) :
    ∃ l', List.Forall₂ R l l' := by
  induction l with
  | nil => exact ⟨[], .nil⟩
  | cons a l ih =>
    obtain ⟨b, hb⟩ := h a List.mem_cons_self
    obtain ⟨l', hl'⟩ := ih fun a ha => h a (List.mem_cons_of_mem _ ha)
    exact ⟨b :: l', .cons hb hl'⟩

/-- Every clean statement has a canonical one. -/
theorem StatementParts.canonicalStatement (h : StatementParts stmt) (hclean : CleanStatement stmt)
    (hpre : BlankLines pre) : ∃ g, CanonicalStatement stmt g pre := by
  obtain ⟨g, hg⟩ := h.header.canonicalHeader rfl rfl hpre
  obtain ⟨gs, hgs⟩ := exists_forall₂ (h.canonicalAttr hclean)
  obtain ⟨cont, hattrs, hnil, hlast⟩ := hg.scanned.addAttrs hg.dateLines hgs
  rw [hg.attrs, List.nil_append] at hattrs
  refine ⟨{ g with attrs := gs, dateLines := stmt.dateLines.map strip }, ?_, ?_, hg.subcommand,
    hg.inline, hg.subject, rfl, ?_, fun hstable => ?_⟩
  · by_cases hrows : stmt.dateLines = []
    · refine ⟨cont, ?_⟩
      rw [hrows, List.map_nil, ← hg.dateLines]
      exact hattrs
    · -- the attributes leave no continuation open, so the rows are rows
      have hnone : cont = none := by
        cases hcont : (canonicalAttrs stmt).getLast? with
        | some a => exact hlast a hcont (hclean.last hrows a hcont)
        | none => exact hnil (List.getLast?_eq_none_iff.mp hcont)
      rw [hnone] at hattrs
      have hall := ScannedStatement.addRows hattrs
        (fun _ => by rw [hg.subcommand]; exact h.dateBody hrows)
        (show ∀ row ∈ stmt.dateLines.map strip, OtherLine row by
          intro row hrow
          obtain ⟨r, hr, rfl⟩ := List.mem_map.mp hrow
          exact hclean.dateLines r hr)
      dsimp only at hall
      rw [hg.dateLines, List.nil_append] at hall
      exact ⟨none, hall⟩
  · rw [preserveStatement_eq hg.attrs hg.dateLines, hg.lines, canonicalStatement_eq,
      ← flatMap_congr_forall₂ (hgs.imp fun a g ⟨_, hg, _⟩ => hg.lines.symm)]
    simp [canonicalHeader, canonicalSubject]
  · exact hgs.imp fun a g ⟨_, hg, _⟩ => ⟨hg.key, hg.value, hg.trimmed⟩
  · have hsorted : canonicalAttrs { g with attrs := gs, dateLines := stmt.dateLines.map strip } = gs := by
      rw [canonicalAttrs, hg.inline]
      exact canonicalSort_of_keys (hgs.imp fun a g ⟨_, hg, _⟩ => hg.key) canonicalSort_pairwise
    rw [canonicalStatement_eq, canonicalStatement_eq, hsorted,
      ← flatMap_congr_forall₂ (hgs.imp fun a g ⟨_, hg, _⟩ => hg.again.symm)]
    have hstrip : (stmt.dateLines.map strip).map strip = stmt.dateLines.map strip := by
      rw [List.map_map]
      exact List.map_congr_left fun l _ => strip_strip l
    rw [hstrip]
    exact congrArg (· ++ _ ++ _) (hg.again hstable)

/-! ## Files -/

variable {jf : JilFile}

/-- The canonical file of another. -/
structure CanonicalFile (jf g : JilFile) : Prop where
  scanned : ScannedFile g
  newlineStyle : g.newlineStyle = .lf
  finalNewline : g.finalNewline = decide (preserveLines g ≠ [])
  lines : preserveLines g = spaced (canonicalBlocks jf)
  statements : List.Forall₂ (fun stmt g => ∃ pre, CanonicalStatement stmt g pre) jf.statements
    g.statements
  again : (∀ stmt ∈ jf.statements, StableSubject stmt) → canonicalBlocks g = canonicalBlocks jf

theorem emitCanonicalComments_floating {comments : List Comment}
    (h : ∀ c ∈ comments, c.attachment = .floating) :
    emitCanonicalComments comments = comments.flatMap fun c => (c.text.map rstrip).lines := by
  have hown : ownLine comments = comments :=
    List.filter_eq_self.mpr fun c hc => by rw [h c hc]; rfl
  rw [emitCanonicalComments, hown]
  rfl

/-- The comments at the end of a file, with blank lines before them. -/
def floatComments (pre : List Line) (comments : List Comment) : List Comment :=
  (putBefore pre (comments.map ({ · with attachment := .leading }))).1.map
    ({ · with attachment := .floating })

section Float

variable {comments : List Comment}
  (h : ∀ c ∈ comments, OwnComment { c with attachment := .leading } ∧ c.attachment = .floating)

include h in
theorem floatComments_own (hpre : BlankLines pre) : ∀ c ∈ floatComments pre comments,
    OwnComment { c with attachment := .leading } ∧ c.attachment = .floating := by
  have hleads : ∀ c ∈ comments.map ({ · with attachment := .leading }), OwnComment c := by
    intro c hc
    obtain ⟨d, hd, rfl⟩ := List.mem_map.mp hc
    exact (h d hd).1
  intro c hc
  obtain ⟨d, hd, rfl⟩ := List.mem_map.mp hc
  have hown := (putBefore_own hleads hpre).1 d hd
  refine ⟨?_, rfl⟩
  have hleading : { d with attachment := .leading } = d := by rw [← hown.leading]
  rwa [← hleading] at hown

include h in
theorem floatComments_lines (hne : comments ≠ []) :
    (floatComments pre comments).flatMap emitFullLine = pre ++ emitCanonicalComments comments := by
  rw [emitCanonicalComments_floating fun c hc => (h c hc).2]
  have hlines := @putBefore_lines (comments.map ({ · with attachment := .leading })) pre
  have hrest : (putBefore pre (comments.map ({ · with attachment := .leading }))).2 = [] := by
    cases comments with
    | nil => exact absurd rfl hne
    | cons => rfl
  rw [hrest, List.append_nil, List.flatMap_map] at hlines
  rw [floatComments, List.flatMap_map]
  exact hlines

theorem floatComments_eq_nil : floatComments pre comments = [] ↔ comments = [] := by
  cases comments with
  | nil => exact ⟨fun _ => rfl, fun _ => rfl⟩
  | cons => exact ⟨nofun, nofun⟩

include h in
theorem floatComments_canonical (hpre : BlankLines pre) :
    emitCanonicalComments (floatComments pre comments) = emitCanonicalComments comments := by
  rw [emitCanonicalComments_floating fun c hc => (h c hc).2,
    emitCanonicalComments_floating fun c hc => (floatComments_own h hpre c hc).2,
    floatComments, List.flatMap_map]
  have hcanonical := @putBefore_canonical (comments.map ({ · with attachment := .leading })) pre
  rw [List.flatMap_map] at hcanonical
  exact hcanonical

end Float

theorem canonicalStatement_ne_nil : canonicalStatement stmt ≠ [] := by
  have hne : ∀ first comments, canonicalWithTrailing first [] comments ≠ [] := by
    intro first comments
    rw [canonicalWithTrailing]
    obtain ⟨inlineTc, blockTc⟩ := trailingPair comments
    cases blockTc with
    | none => exact List.cons_ne_nil _ _
    | some => exact List.cons_ne_nil _ _
  intro h
  rw [canonicalStatement_eq, canonicalHeader] at h
  simp only [List.append_eq_nil_iff] at h
  exact hne _ _ h.1.1.2

theorem canonicalBlocks_ne_nil (h : ∀ c ∈ jf.trailingComments, c.attachment = .floating) :
    ∀ block ∈ canonicalBlocks jf, block ≠ [] := by
  intro block hb
  rcases List.mem_append.mp hb with hb | hb
  · obtain ⟨stmt, -, rfl⟩ := List.mem_map.mp hb
    exact canonicalStatement_ne_nil
  · split at hb
    · cases hb
    · next hne =>
      rw [List.mem_singleton.mp hb, emitCanonicalComments_floating h]
      obtain ⟨c, cs, hcs⟩ := List.exists_cons_of_ne_nil hne
      simp [hcs, Block.lines]

theorem spaced_eq_nil (h : ∀ c ∈ jf.trailingComments, c.attachment = .floating) :
    spaced (canonicalBlocks jf) = [] ↔ canonicalBlocks jf = [] := by
  cases hblocks : canonicalBlocks jf with
  | nil => exact ⟨fun _ => rfl, fun _ => rfl⟩
  | cons block blocks =>
    have hne := canonicalBlocks_ne_nil h block (hblocks ▸ List.mem_cons_self)
    simp [spaced, hne]

theorem renderCanonical_eq (h : ∀ c ∈ jf.trailingComments, c.attachment = .floating) :
    renderCanonical jf =
      if canonicalBlocks jf = [] then [] else join ['\n'] (spaced (canonicalBlocks jf)) ++ ['\n'] := by
  rw [renderCanonical]
  simp only [List.map_eq_nil_iff]
  rw [join_spaced (canonicalBlocks_ne_nil h)]
  rfl

theorem spaced_concat {blocks : List (List Line)} {block : List Line} :
    spaced (blocks ++ [block]) = spaced blocks ++ ((if blocks = [] then [] else [[]]) ++ block) := by
  cases blocks with
  | nil => simp [spaced]
  | cons => simp [spaced]

theorem blankLines_empty : BlankLines [[]] := by
  intro l hl
  rw [List.mem_singleton.mp hl]
  rfl

/-- The statements of a file have canonical ones that stand one blank line apart. -/
theorem exists_canonicalStatements {stmts : List JilStatement}
    (h : ∀ stmt ∈ stmts, StatementParts stmt ∧ CleanStatement stmt) :
    ∃ gs, List.Forall₂ (fun stmt g => ∃ pre, CanonicalStatement stmt g pre) stmts gs ∧
      gs.flatMap preserveStatement = spaced (stmts.map canonicalStatement) := by
  cases stmts with
  | nil => exact ⟨[], .nil, rfl⟩
  | cons stmt stmts =>
    obtain ⟨hparts, hclean⟩ := h stmt List.mem_cons_self
    obtain ⟨g, hg⟩ := hparts.canonicalStatement hclean (show BlankLines [] from nofun)
    obtain ⟨gs, hgs⟩ := exists_forall₂ fun stmt hs =>
      (h stmt (List.mem_cons_of_mem _ hs)).1.canonicalStatement
        (h stmt (List.mem_cons_of_mem _ hs)).2 blankLines_empty
    refine ⟨g :: gs, .cons ⟨[], hg⟩ (hgs.imp fun _ _ hg => ⟨[[]], hg⟩), ?_⟩
    rw [List.flatMap_cons, hg.lines, List.nil_append, List.map_cons, spaced, List.flatMap_map]
    exact congrArg (canonicalStatement stmt ++ ·)
      (flatMap_congr_forall₂ (hgs.imp fun _ _ hg => hg.lines.symm)).symm

theorem canonicalStatements_again {stmts gs : List JilStatement}
    (h : List.Forall₂ (fun stmt g => ∃ pre, CanonicalStatement stmt g pre) stmts gs)
    (hstable : ∀ stmt ∈ stmts, StableSubject stmt) :
    gs.map canonicalStatement = stmts.map canonicalStatement := by
  induction h with
  | nil => rfl
  | cons hg _ ih =>
    obtain ⟨pre, hg⟩ := hg
    rw [List.map_cons, List.map_cons, hg.again (hstable _ List.mem_cons_self),
      ih fun stmt hs => hstable stmt (List.mem_cons_of_mem _ hs)]

/-- Every scanned file of clean statements has a canonical one. -/
theorem ScannedFile.canonicalFile (h : ScannedFile jf)
    (hclean : ∀ stmt ∈ jf.statements, CleanStatement stmt) : ∃ g, CanonicalFile jf g := by
  obtain ⟨gs, hgs, hlines⟩ := exists_canonicalStatements fun stmt hs =>
    ⟨(h.statements stmt hs).choose_spec.parts, hclean stmt hs⟩
  let pre : List Line := if jf.statements.map canonicalStatement = [] then [] else [[]]
  have hpre : BlankLines pre := by
    dsimp only [pre]
    split
    · exact nofun
    · exact blankLines_empty
  let g : JilFile :=
    { statements := gs, trailingComments := floatComments pre jf.trailingComments
      finalNewline := decide (canonicalBlocks jf ≠ []) }
  have hpreserve : preserveLines g = spaced (canonicalBlocks jf) := by
    rw [preserveLines, canonicalBlocks, List.append_nil, hlines]
    split
    · next hnil =>
      have hfloat : g.trailingComments = [] := floatComments_eq_nil.mpr hnil
      rw [hfloat, List.flatMap_nil, List.append_nil, List.append_nil]
    · next hne => rw [floatComments_lines h.trailingComments hne, spaced_concat]
  refine ⟨g, ⟨fun stmt hs => ?_, floatComments_own h.trailingComments hpre, nofun⟩, rfl, ?_, hpreserve,
    hgs, fun hstable => ?_⟩
  · obtain ⟨stmt', -, pre', hg⟩ := exists_of_mem_right hgs hs
    exact hg.scanned
  · rw [hpreserve]
    exact decide_eq_decide.mpr
      (not_congr (spaced_eq_nil fun c hc => (h.trailingComments c hc).2).symm)
  · rw [canonicalBlocks, canonicalBlocks, canonicalStatements_again hgs hstable]
    simp only [g, floatComments_eq_nil, floatComments_canonical h.trailingComments hpre]

end Dsl41.Jil
