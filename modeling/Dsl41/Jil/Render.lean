import Dsl41.Jil.Value
import Mathlib.Data.List.Sort
import Mathlib.Data.Char
import Mathlib.Data.List.Lex

/-!
# The renderers

The preserve mode writes back every layout field; the canonical mode drops the layout, sorts the
attributes and moves an inline job type to its own line.
-/

namespace Dsl41.Jil

open Dsl41.Infra

/-- `_trailing_pair`: the first closed trailing comment and the last block one. -/
def trailingPair (comments : List Comment) : Option Comment × Option Comment :=
  let trailing := comments.filter (·.attachment = .trailing)
  ((trailing.filter (!·.trailingBlock)).head?, (trailing.filter (·.trailingBlock)).getLast?)

/-- The comments on their own lines. -/
def ownLine (comments : List Comment) : List Comment :=
  comments.filter (·.attachment ≠ .trailing)

/-! ## The preserve mode -/

/-- The lines of a comment, its indent before the first and its post after the last. -/
def Comment.textLines (c : Comment) : Block := (c.text.appendLast c.post).prepend c.indent

/-- `emit_full_line`. -/
def emitFullLine (c : Comment) : List Line := c.preBlankLines ++ c.textLines.lines

/-- `emit_with_trailing`: a closed comment rides the first line, a block one the last. -/
def emitWithTrailing (first : Line) (rest : List Line) (comments : List Comment) : List Line :=
  let (inlineTc, blockTc) := trailingPair comments
  let first := match inlineTc with
    | some tc => first ++ tc.textLines.first
    | none => first
  match blockTc with
  | some tc => (Block.append { first, rest } tc.textLines).lines
  | none => first :: rest

def preserveAttr (a : RawAttr) : List Line :=
  (ownLine a.comments).flatMap emitFullLine ++ a.preBlankLines ++
    emitWithTrailing (a.indent ++ a.key ++ [':'] ++ a.sep ++ a.rawValue.first) a.rawValue.rest
      a.comments

/-- A statement's header line. -/
def preserveHeader (stmt : JilStatement) : Line :=
  stmt.indent ++ stmt.subcommand ++ [':'] ++ stmt.sep ++ stmt.subject ++
    match stmt.jobTypeInline with
    | some jobType => stmt.inlineGap ++ stmt.inlineKey ++ [':'] ++ stmt.inlineSep ++ jobType
    | none => []

def preserveStatement (stmt : JilStatement) : List Line :=
  (ownLine stmt.comments).flatMap emitFullLine ++ stmt.preBlankLines ++
    emitWithTrailing (preserveHeader stmt) [] stmt.comments ++
    stmt.attrs.flatMap preserveAttr ++ stmt.dateLines

def preserveLines (jf : JilFile) : List Line :=
  jf.statements.flatMap preserveStatement ++ jf.trailingComments.flatMap emitFullLine ++
    jf.eofBlankLines

/-- `render_preserve`. -/
def renderPreserve (jf : JilFile) : List Char :=
  let out := preserveLines jf
  if out = [] then []
  else join jf.newlineStyle.chars out ++ if jf.finalNewline then jf.newlineStyle.chars else []

/-! ## The canonical mode -/

/-- `_CANONICAL_KEY_ORDER`. -/
def canonicalKeyOrder : List Line := [
  "job_type", "box_name", "command", "machine", "machine_method", "owner", "permission",
  "date_conditions", "days_of_week", "run_calendar", "exclude_calendar", "start_times",
  "start_mins", "run_window", "timezone", "must_start_times", "must_complete_times", "condition",
  "box_success", "box_failure", "box_terminator", "job_terminator", "max_exit_success",
  "success_codes", "fail_codes", "term_run_time", "n_retrys", "auto_hold", "auto_delete",
  "watch_file", "watch_interval", "watch_file_min_size", "job_load", "priority", "job_class",
  "avg_runtime", "profile", "envvars", "ulimit", "elevated", "interactive", "std_in_file",
  "std_out_file", "std_err_file", "chk_files", "heartbeat_interval", "alarm_if_fail",
  "description", "value"].map String.toList

/-- The rank of a key and, for an unknown one, the key itself. -/
def sortKey (a : RawAttr) : Nat × Line :=
  let key := lower a.key
  let rank := canonicalKeyOrder.idxOf key
  (rank, if rank = canonicalKeyOrder.length then key else [])

/-- The order of two attributes; the sort is stable, which the source's index stands for. -/
def sortLe (a b : RawAttr) : Bool :=
  let (m, k) := sortKey a
  let (n, l) := sortKey b
  m < n || (m = n && k ≤ l)

/-- `_canonical_sort`. -/
def canonicalSort (attrs : List RawAttr) : List RawAttr := attrs.insertionSort (sortLe · ·)

/-- `_emit_canonical_comments`. -/
def emitCanonicalComments (comments : List Comment) : List Line :=
  (ownLine comments).flatMap fun c => c.text.lines.map rstrip

/-- `_canonical_with_trailing`. -/
def canonicalWithTrailing (first : Line) (rest : List Line) (comments : List Comment) : List Line :=
  let (inlineTc, blockTc) := trailingPair comments
  let first := match inlineTc with
    | some tc => first ++ [' '] ++ rstrip tc.text.first
    | none => first
  match blockTc with
  | some tc =>
    (Block.append { first, rest } ((tc.text.map rstrip).prepend [' '])).lines
  | none => first :: rest

/-- `key: value`, or `key:` for an empty value. -/
def keyValue (key value : Line) : Line :=
  if value = [] then key ++ [':'] else key ++ [':', ' '] ++ value

/-- The header's subject. The comment that ends the subject of a one-line form is line-final once
the job type has moved, and is split as a second parse would. -/
def canonicalSubject (stmt : JilStatement) : Line :=
  if stmt.jobTypeInline.isSome ∧ ¬ stmt.comments.any (·.attachment = .trailing) then
    let split := splitTrailingComment stmt.subject
    if split.commentText ≠ [] ∧ !split.opensComment then
      split.value ++ [' '] ++ split.commentText
    else rstrip stmt.subject
  else rstrip stmt.subject

/-- The attributes with the inline job type among them, in canonical order. -/
def canonicalAttrs (stmt : JilStatement) : List RawAttr :=
  let inline : Option RawAttr := stmt.jobTypeInline.map fun jobType =>
    { key := stmt.inlineKey, rawValue := { first := jobType } }
  canonicalSort (inline.toList ++ stmt.attrs)

/-- The value's lines, right-stripped from the end of a blob region on. -/
def canonicalValue (a : RawAttr) : Block :=
  let line : Line × Nat → Line := fun (l, n) => if n < a.literalPrefixLines then l else rstrip l
  { first := line (a.rawValue.first, 0), rest := (a.rawValue.rest.zipIdx 1).map line }

def canonicalAttr (a : RawAttr) : List Line :=
  let value := canonicalValue a
  emitCanonicalComments a.comments ++
    canonicalWithTrailing (keyValue a.key value.first) value.rest a.comments

def canonicalStatement (stmt : JilStatement) : List Line :=
  emitCanonicalComments stmt.comments ++
    canonicalWithTrailing (keyValue stmt.subcommand (canonicalSubject stmt)) [] stmt.comments ++
    (canonicalAttrs stmt).flatMap canonicalAttr ++ stmt.dateLines.map strip

/-- The blocks that one blank line separates. -/
def canonicalBlocks (jf : JilFile) : List (List Line) :=
  jf.statements.map canonicalStatement ++
    if jf.trailingComments = [] then [] else [emitCanonicalComments jf.trailingComments]

/-- `render_canonical`. -/
def renderCanonical (jf : JilFile) : List Char :=
  let blocks := (canonicalBlocks jf).map (join ['\n'])
  if blocks = [] then [] else join ['\n', '\n'] blocks ++ ['\n']

end Dsl41.Jil
