import Dsl41.Jil.Value

/-!
# The scanner

The scan loop with what it carries from line to line. A step takes the line in hand and the lines
after it; it returns the new state and how many of those lines it has consumed as well, the body
of a comment or of a blob region.
-/

namespace Dsl41.Jil

open Dsl41.Infra

/-! ## Regions of several lines -/

/-- The lines up to the first one with a needle: those before it, it up to the needle's end, and
its rest. -/
def cutLines (needle : Line) : List Line → Option (List Line × Line × Line)
  | [] => none
  | l :: rest =>
    match cut needle l with
    | some (through, after) => some ([], through, after)
    | none => (cutLines needle rest).map fun (before, through, after) => (l :: before, through, after)

/-- A region that starts on a line: it ends with the first needle after the line's first `n`
characters. Its text, what follows it on its last line, and how many lines it takes after the
first one. -/
def region (needle : Line) (n : Nat) (body : Line) (rest : List Line) :
    Option (Block × Line × Nat) :=
  match cut needle (body.drop n) with
  | some (through, after) => some ({ first := body.take n ++ through }, after, 0)
  | none => (cutLines needle rest).map fun (before, through, after) =>
    ({ first := body, rest := before ++ [through] }, after, before.length + 1)

/-- `_scan_block_comment`. -/
def scanBlockComment (i : Nat) (indent body : Line) (preBlankLines : List Line)
    (rest : List Line) : Except JilParseError (Comment × Nat) :=
  match region closer 2 body rest with
  | none => .error ⟨.unterminatedComment, i + 1⟩
  | some (text, post, k) =>
    if post.all isSpace then
      .ok ({ text, attachment := .leading, preBlankLines, indent, post }, k)
    else .error ⟨.contentAfterComment, i + k + 1⟩

def blobOpen : Line := "<auto_blobt>".toList

def blobClose : Line := "</auto_blobt>".toList

/-- `_scan_blob_literal`: the literal, the text after its closer, and how many lines it takes
after the first. -/
def scanBlobLiteral (i : Nat) (candidate : Line) (rest : List Line) :
    Except JilParseError (Block × Line × Nat) :=
  match region blobClose blobOpen.length candidate rest with
  | none => .error ⟨.unterminatedBlob, i + 1⟩
  | some r => .ok r

/-! ## Key lines -/

/-- A key line's value, its trailing comment, and what decides how the scan goes on. -/
structure ValueLine where
  value : Block
  tailValue : Line
  literalPrefixLines : Nat
  trailing : Option Comment
  blobOpen : Bool
  opensComment : Bool
  taken : Nat

/-- Whether a key line's value opens a blob region. -/
def startsBlob (key candidate : Line) : Bool :=
  lower key = "blob_input".toList && blobOpen.isPrefixOf candidate

/-- The trailing comment of a value's last line, and how many lines are taken after the first.
A comment that opens here takes its body lines, which the loop then does not see. -/
def scanTrailing (i k : Nat) (isBlob : Bool) (split : TrailingSplit) (rest : List Line) :
    Except JilParseError (Option Comment × Nat) :=
  if split.opensComment then do
    let (tc, taken) ← scanBlockComment (i + k) split.gap split.commentText [] (rest.drop k)
    .ok (some { tc with attachment := .trailing, trailingBlock := true }, k + taken)
  else if split.commentText = [] then .ok (none, k)
  else .ok (some { text := ⟨split.commentText, []⟩, attachment := .trailing
                   trailingBlock := isBlob, indent := split.gap, post := split.post }, k)

/-- The value of a key line: a blob region first, then the trailing comment of its tail. -/
def scanValue (i : Nat) (key candidate : Line) (rest : List Line) :
    Except JilParseError ValueLine := do
  let isBlob := startsBlob key candidate
  let (literal, tail, k) ←
    (if isBlob then scanBlobLiteral i candidate rest else .ok (⟨[], []⟩, candidate, 0))
  let split := splitTrailingComment tail false (!isBlob)
  let (trailing, taken) ← scanTrailing i k isBlob split rest
  .ok { value := literal.appendLast split.value, tailValue := split.value
        literalPrefixLines := literal.rest.length, trailing, blobOpen := isBlob
        opensComment := split.opensComment, taken }

/-- A subcommand line's value, split at its inline pair. -/
structure Header where
  subject : Line
  jobTypeInline : Option Line := none
  inlineGap : Line := []
  inlineKey : Line := "job_type".toList
  inlineSep : Line := [' ']

/-- The inline pair of `_make_statement`. -/
def scanHeader (i : Nat) (value : Line) : Except JilParseError Header :=
  let masked := maskClosedBlocks value
  match findInlinePair masked with
  | none => .ok { subject := value }
  | some m =>
    if lower m.key ≠ "job_type".toList then .error ⟨.unsupportedInline m.key, i + 1⟩
    else
      let tail := value.drop m.end_
      let inlineSep := tail.takeWhile isBlank
      if (findInlinePair (masked.drop (m.end_ + inlineSep.length))).isSome then
        .error ⟨.multipleInline, i + 1⟩
      else
        .ok { subject := value.take m.start, jobTypeInline := some (tail.dropWhile isBlank),
              inlineGap := m.gap, inlineKey := m.key, inlineSep }

/-! ## The loop -/

/-- What the loop carries: the finished statements and the one in hand, the comments and blank
lines that await their element, and, while the last attribute may be continued, the quote parity
at the end of its value. -/
structure ScanState where
  done : List JilStatement := []
  cur : Option JilStatement := none
  pendC : List Comment := []
  pendB : List Line := []
  cont : Option Bool := none

/-- Take a comment on its own line. -/
def ScanState.pend (s : ScanState) (c : Comment) : ScanState :=
  { s with pendC := s.pendC ++ [c], pendB := [], cont := none }

/-- `_make_statement`, and the statement in hand is finished. -/
def ScanState.openStatement (s : ScanState) (key indent sep : Line) (header : Header)
    (trailing : Option Comment) : ScanState where
  done := s.done ++ s.cur.toList
  cur := some
    { subcommand := key, subject := header.subject, jobTypeInline := header.jobTypeInline
      attrs := [], comments := s.pendC ++ trailing.toList, preBlankLines := s.pendB, indent, sep
      inlineGap := header.inlineGap, inlineKey := header.inlineKey, inlineSep := header.inlineSep }

/-- The checks of an attribute line, in their order. -/
def checkAttr (s : ScanState) (i : Nat) (key : Line) (v : ValueLine) :
    Except JilParseError JilStatement :=
  if subcommandShaped key then .error ⟨.subcommandShape key, i + 1⟩
  else
    match s.cur with
    | none => .error ⟨.attributeBeforeStatement key, i + 1⟩
    | some cur =>
      if cur.dateLines ≠ [] then
        .error ⟨.attributeAfterDateRows key cur.subcommand (strip cur.subject), i + 1⟩
      else
        match findInlinePair (maskClosedBlocks v.tailValue false (!v.blobOpen)) with
        | some pair => .error ⟨.secondPair key pair.key, i + 1⟩
        | none => .ok cur

/-- The continuation an attribute line leaves open. -/
def contOf (key : Line) (v : ValueLine) : Option Bool :=
  if lower key ∈ continuationAttrs ∧ !v.opensComment then
    some (oddQuotes (maskClosedBlocks v.tailValue false (!v.blobOpen)))
  else none

/-- A key line: a statement's header or an attribute. -/
def scanKeyLine (s : ScanState) (i : Nat) (indent key after : Line) (rest : List Line) :
    Except JilParseError (ScanState × Nat) := do
  let sep := after.takeWhile isBlank
  let v ← scanValue i key (after.dropWhile isBlank) rest
  if lower key ∈ subcommands then
    let header ← scanHeader i v.value.first
    .ok (s.openStatement key indent sep header v.trailing, v.taken)
  else
    let cur ← checkAttr s i key v
    let attr : RawAttr :=
      { key, rawValue := v.value, comments := s.pendC ++ v.trailing.toList
        preBlankLines := s.pendB, indent, sep, literalPrefixLines := v.literalPrefixLines }
    .ok ({ s with cur := some { cur with attrs := cur.attrs ++ [attr] }
                  pendC := [], pendB := [], cont := contOf key v }, v.taken)

/-- Change the attribute that is open for continuation, the last of its statement. -/
def ScanState.updateLast (s : ScanState) (f : RawAttr → RawAttr) : ScanState :=
  { s with cur := s.cur.map fun cur => { cur with attrs := cur.attrs.modifyLast f } }

/-- The key of the attribute that is open for continuation. -/
def ScanState.lastKey (s : ScanState) : Line :=
  ((s.cur.bind (·.attrs.getLast?)).map (·.key)).getD []

/-- A continuation line of the open attribute; a comment it opens closes the continuation. -/
def scanContinuation (s : ScanState) (i : Nat) (line : Line) (inQuote : Bool) (rest : List Line) :
    Except JilParseError (ScanState × Nat) :=
  let split := splitTrailingComment line inQuote
  let scanText := if split.opensComment then split.value ++ split.gap else line
  let masked := maskClosedBlocks scanText inQuote
  match findInlinePair masked inQuote with
  | some pair => .error ⟨.continuationPair s.lastKey pair.key, i + 1⟩
  | none =>
    if split.opensComment then do
      let (tc, k) ← scanBlockComment i split.gap split.commentText [] rest
      let trailing := { tc with attachment := .trailing, trailingBlock := true }
      .ok ({ s.updateLast fun a => { a with
              rawValue := a.rawValue.addLine split.value, comments := a.comments ++ [trailing] }
             with cont := none }, k)
    else
      .ok ({ s.updateLast fun a => { a with rawValue := a.rawValue.addLine line }
             with cont := some (inQuote ^^ oddQuotes masked) }, 0)

/-- A date row, where a statement of a date body is in hand and nothing awaits an element. -/
def scanDateRow (s : ScanState) (i : Nat) (line : Line) :
    Except JilParseError (ScanState × Nat) :=
  match s.cur with
  | some cur =>
    if lower cur.subcommand ∈ dateBodySubcommands ∧ s.pendC = [] ∧ s.pendB = [] then
      .ok ({ s with cur := some { cur with dateLines := cur.dateLines ++ [line] } }, 0)
    else .error ⟨.unrecognizedLine, i + 1⟩
  | none => .error ⟨.unrecognizedLine, i + 1⟩

/-- A line that is neither blank, nor a comment, nor key-shaped. -/
def scanOther (s : ScanState) (i : Nat) (line : Line) (rest : List Line) :
    Except JilParseError (ScanState × Nat) :=
  match s.cont with
  | some inQuote =>
    if s.pendC = [] ∧ s.pendB = [] then scanContinuation s i line inQuote rest
    else scanDateRow s i line
  | none => scanDateRow s i line

/-- One turn of the scan loop. -/
def scanLine (s : ScanState) (i : Nat) (line : Line) (rest : List Line) :
    Except JilParseError (ScanState × Nat) :=
  if line.all isSpace then .ok ({ s with pendB := s.pendB ++ [line], cont := none }, 0)
  else
    let indent := line.takeWhile isBlank
    let body := line.dropWhile isBlank
    if ['#'].isPrefixOf body then
      .ok (s.pend { text := { first := body }, attachment := .leading,
                    preBlankLines := s.pendB, indent }, 0)
    else if opener.isPrefixOf body then do
      let (comment, k) ← scanBlockComment i indent body s.pendB rest
      .ok (s.pend comment, k)
    else
      match keyOf body with
      | some (key, after) => scanKeyLine s i indent key after rest
      | none => scanOther s i line rest

/-- The scan loop from a line's index, with the count of the lines already consumed. -/
def scanLines (s : ScanState) (i skip : Nat) : List Line → Except JilParseError ScanState
  | [] => .ok s
  | line :: rest =>
    match skip with
    | skip + 1 => scanLines s (i + 1) skip rest
    | 0 => do
      let (s, k) ← scanLine s i line rest
      scanLines s (i + 1) k rest

/-! ## The text -/

/-- `text.replace("\r\n", "\x00")`. -/
def replaceCrlf : List Char → List Char
  | '\r' :: '\n' :: rest => '\x00' :: replaceCrlf rest
  | c :: rest => c :: replaceCrlf rest
  | [] => []

/-- A carriage return or a newline. -/
def isEol (c : Char) : Bool := c = '\r' || c = '\n'

/-- `_detect_newline`. -/
def detectNewline (text : List Char) : Except JilParseError NewlineStyle :=
  if (cut NewlineStyle.crlf.chars text).isSome then
    let rest := replaceCrlf text
    if rest.any isEol then
      let before := rest.takeWhile fun c => !isEol c
      .error ⟨.mixedLineEndings, before.count '\x00' + 1⟩
    else .ok .crlf
  else if '\r' ∈ text then
    .error ⟨.bareCr, (text.takeWhile (· ≠ '\r')).count '\n' + 1⟩
  else .ok .lf

/-- The lines of a text, without the empty one after its final newline. -/
def linesOf (style : NewlineStyle) (text : List Char) : List Line :=
  if text = [] then []
  else if style.chars.isSuffixOf text then (split style.chars text).dropLast
  else split style.chars text

/-- `scan`'s result. -/
def ScanState.file (s : ScanState) (style : NewlineStyle) (finalNewline : Bool) : JilFile where
  statements := s.done ++ s.cur.toList
  trailingComments := s.pendC.map fun c => { c with attachment := .floating }
  newlineStyle := style
  eofBlankLines := s.pendB
  finalNewline

/-- `parse`. -/
def parse (text : List Char) : Except JilParseError JilFile := do
  let style ← detectNewline text
  let s ← scanLines {} 0 0 (linesOf style text)
  return s.file style (text ≠ [] && style.chars.isSuffixOf text)

end Dsl41.Jil
