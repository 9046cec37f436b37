import Dsl41.Infra.Text

/-!
# JIL text and its tree

Characters as the scanner classifies them, the elements of the tree with their layout fields, and
what the scanner raises. A line is the characters between two line ends; a value or a comment of
several lines is a `Block`, the lines that the source joins with newlines.
-/

namespace Dsl41.Jil

abbrev Line := List Char

/-! ## Characters -/

/-- `str.isspace` of one character. -/
def isSpace (c : Char) : Bool :=
  let n := c.toNat
  (9 ≤ n && n ≤ 13) || (28 ≤ n && n ≤ 32) || n == 0x85 || n == 0xa0 || n == 0x1680 ||
    (0x2000 ≤ n && n ≤ 0x200a) || n == 0x2028 || n == 0x2029 || n == 0x202f || n == 0x205f ||
    n == 0x3000

/-- A space or a tab: what the line rules read as a gap. -/
def isBlank (c : Char) : Bool := c = ' ' || c = '\t'

/-- The first character of a key: `[A-Za-z_]`. -/
def isKeyStart (c : Char) : Bool := ('A' ≤ c && c ≤ 'Z') || ('a' ≤ c && c ≤ 'z') || c = '_'

/-- The other characters of a key: `[A-Za-z0-9_]`. -/
def isKeyChar (c : Char) : Bool := isKeyStart c || ('0' ≤ c && c ≤ '9')

theorem isSpace_of_isBlank {c : Char} (h : isBlank c = true) : isSpace c = true := by
  rw [isBlank, Bool.or_eq_true, decide_eq_true_eq, decide_eq_true_eq] at h
  obtain rfl | rfl := h
  · decide
  · decide

/-- `str.lower` of a key. -/
def lower (key : Line) : Line := key.map Char.toLower

/-- `str.rstrip()`. -/
def rstrip (l : Line) : Line := l.rdropWhile isSpace

/-- `str.strip()`. -/
def strip (l : Line) : Line := rstrip (l.dropWhile isSpace)

/-! ## Keys -/

/-- The boundaries between statements. -/
def subcommands : List Line := [
  "insert_job", "update_job", "delete_job", "rename_job", "delete_box", "insert_machine",
  "update_machine", "delete_machine", "insert_global", "delete_global", "override_job",
  "insert_xinst", "update_xinst", "delete_xinst", "insert_blob", "update_blob", "delete_blob",
  "insert_glob", "update_glob", "delete_glob", "insert_resource", "update_resource",
  "delete_resource", "insert_monbro", "update_monbro", "delete_monbro", "insert_job_type",
  "update_job_type", "delete_job_type", "insert_connectionprofile", "update_connectionprofile",
  "delete_connectionprofile", "calendar", "cycle", "extended_calendar", "ext_calendar"].map
  String.toList

/-- `_DATE_BODY_SUBCOMMANDS`. -/
def dateBodySubcommands : List Line := ["calendar".toList]

/-- `_SUBCOMMAND_SHAPE_RE`, matched against a whole key. -/
def subcommandShaped (key : Line) : Bool :=
  ["insert_", "update_", "delete_", "override_", "rename_"].any fun verb =>
    verb.toList.isPrefixOf (lower key) && verb.toList.length < key.length

/-- `CONTINUATION_ATTRS`. -/
def continuationAttrs : List Line := [
  "start_times", "start_mins", "must_start_times", "must_complete_times", "run_calendar",
  "exclude_calendar"].map String.toList

/-! ## The tree -/

/-- A text of one or more lines. -/
structure Block where
  first : Line
  rest : List Line := []
deriving DecidableEq, Repr

namespace Block

def lines (b : Block) : List Line := b.first :: b.rest

/-- Append to the last line. -/
def appendLast (b : Block) (t : Line) : Block :=
  match b.rest with
  | [] => { b with first := b.first ++ t }
  | _ :: _ => { b with rest := b.rest.modifyLast (· ++ t) }

/-- Put a block on the last line of another. -/
def append (b c : Block) : Block :=
  { b.appendLast c.first with rest := (b.appendLast c.first).rest ++ c.rest }

/-- Put text before the first line. -/
def prepend (l : Line) (b : Block) : Block := { b with first := l ++ b.first }

/-- Add a line. -/
def addLine (b : Block) (l : Line) : Block := { b with rest := b.rest ++ [l] }

def map (f : Line → Line) (b : Block) : Block := { first := f b.first, rest := b.rest.map f }

end Block

inductive Attachment where
  | leading | trailing | floating
deriving DecidableEq, Repr

structure Comment where
  text : Block
  attachment : Attachment
  trailingBlock : Bool := false
  preBlankLines : List Line := []
  indent : Line := []
  post : Line := []
deriving DecidableEq, Repr

structure RawAttr where
  key : Line
  rawValue : Block
  comments : List Comment := []
  preBlankLines : List Line := []
  indent : Line := []
  sep : Line := [' ']
  literalPrefixLines : Nat := 0
deriving DecidableEq, Repr

structure JilStatement where
  subcommand : Line
  subject : Line
  jobTypeInline : Option Line := none
  attrs : List RawAttr
  dateLines : List Line := []
  comments : List Comment := []
  preBlankLines : List Line := []
  indent : Line := []
  sep : Line := [' ']
  inlineGap : Line := []
  inlineKey : Line := "job_type".toList
  inlineSep : Line := [' ']
deriving DecidableEq, Repr

inductive NewlineStyle where
  | lf | crlf
deriving DecidableEq, Repr

def NewlineStyle.chars : NewlineStyle → List Char
  | lf => ['\n']
  | crlf => ['\r', '\n']

structure JilFile where
  statements : List JilStatement
  trailingComments : List Comment := []
  newlineStyle : NewlineStyle := .lf
  eofBlankLines : List Line := []
  finalNewline : Bool := true
deriving DecidableEq, Repr

/-! ## What the scanner raises -/

inductive ParseFault where
  | mixedLineEndings
  | bareCr
  | subcommandShape (key : Line)
  | attributeBeforeStatement (key : Line)
  | attributeAfterDateRows (key subcommand subject : Line)
  | secondPair (key second : Line)
  | continuationPair (key second : Line)
  | unrecognizedLine
  | unterminatedComment
  | contentAfterComment
  | unterminatedBlob
  | unsupportedInline (key : Line)
  | multipleInline
deriving DecidableEq, Repr

/-- `JilParseError`: the fault and its line. -/
structure JilParseError where
  fault : ParseFault
  line : Nat
deriving DecidableEq, Repr

end Dsl41.Jil
