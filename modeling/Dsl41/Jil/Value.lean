import Dsl41.Jil.Syntax

/-!
# The rules of one line

How a value body splits at its trailing comment, which closed comments stay in the value, and
where a second `key:` pair stands. Each walk reads a line from the left with the quote parity and
whether a comment may open here; `skip` counts the characters of a closed comment still to pass.
-/

namespace Dsl41.Jil

open Dsl41.Infra

def opener : Line := ['/', '*']

def closer : Line := ['*', '/']

/-- `_TrailingSplit`. -/
structure TrailingSplit where
  value : Line
  gap : Line := []
  commentText : Line := []
  post : Line := []
  opensComment : Bool := false
deriving DecidableEq, Repr

/-- The split at a marker: the value before it, its gap, and the comment. -/
def splitAt (seen commentText post : Line) (opensComment : Bool) : TrailingSplit where
  value := seen.rdropWhile isBlank
  gap := seen.rtakeWhile isBlank
  commentText
  post
  opensComment

/-- The walk of `_split_trailing_comment`, with what it has passed. -/
def splitFrom (skip : Nat) (inQuote opens : Bool) (seen : Line) : Line → TrailingSplit
  | [] => { value := seen }
  | c :: rest =>
    match skip with
    | skip + 1 => splitFrom skip inQuote (isBlank c) (seen ++ [c]) rest
    | 0 =>
      if c = '"' then splitFrom 0 (!inQuote) false (seen ++ [c]) rest
      else if !inQuote && opens && opener.isPrefixOf (c :: rest) then
        match cut closer (rest.drop 1) with
        | none => splitAt seen (c :: rest) [] true
        | some (through, after) =>
          if after.all isSpace then splitAt seen (opener ++ through) after false
          -- a closed comment with text after it: opaque
          else splitFrom (through.length + 1) inQuote false (seen ++ [c]) rest
      else splitFrom 0 inQuote (isBlank c) (seen ++ [c]) rest

/-- `_split_trailing_comment`. -/
def splitTrailingComment (body : Line) (inQuote : Bool := false) (atStart : Bool := true) :
    TrailingSplit :=
  splitFrom 0 inQuote atStart [] body

/-- `_MASK_FILL`. -/
def maskFill : Char := '*'

/-- The walk of `_mask_closed_blocks`. -/
def maskFrom (skip : Nat) (inQuote opens : Bool) : Line → Line
  | [] => []
  | c :: rest =>
    match skip with
    | skip + 1 => maskFill :: maskFrom skip inQuote (isBlank c) rest
    | 0 =>
      if c = '"' then c :: maskFrom 0 (!inQuote) false rest
      else if !inQuote && opens && opener.isPrefixOf (c :: rest) then
        match cut closer (rest.drop 1) with
        | none => c :: rest
        | some (through, _) => maskFill :: maskFrom (through.length + 1) inQuote false rest
      else c :: maskFrom 0 inQuote (isBlank c) rest

/-- `_mask_closed_blocks`. -/
def maskClosedBlocks (value : Line) (inQuote : Bool := false) (atStart : Bool := true) : Line :=
  maskFrom 0 inQuote atStart value

/-- `_KEY_RE` followed by a colon: the key and what is after the colon. -/
def keyOf (body : Line) : Option (Line × Line) :=
  match body.takeWhile isKeyChar, body.dropWhile isKeyChar with
  | c :: key, ':' :: rest => if isKeyStart c then some (c :: key, rest) else none
  | _, _ => none

/-- A match of `_INLINE_RE`: where it starts, its gap and its key. -/
structure InlinePair where
  start : Nat
  gap : Line
  key : Line
deriving DecidableEq, Repr

/-- `m.end()`. -/
def InlinePair.end_ (m : InlinePair) : Nat := m.start + m.gap.length + m.key.length + 1

/-- `_INLINE_RE` matched at the head of a line. -/
def inlineAt (l : Line) : Option (Line × Line) :=
  (keyOf (l.dropWhile isBlank)).map fun (key, _) => (l.takeWhile isBlank, key)

/-- The first pair outside quotes, from an offset. A pair starts with its whole gap: at a blank
the gap before it has failed, or stands in quotes and so does the rest of it. -/
def findInlineFrom (start : Nat) (inQuote : Bool) : Line → Option InlinePair
  | [] => none
  | c :: rest =>
    match if isBlank c && !inQuote then inlineAt (c :: rest) else none with
    | some (gap, key) => some { start, gap, key }
    | none => findInlineFrom (start + 1) (inQuote ^^ (c == '"')) rest

/-- `_find_inline_pair`. -/
def findInlinePair (value : Line) (inQuote : Bool := false) : Option InlinePair :=
  findInlineFrom 0 inQuote value

/-- `masked.count('"') % 2 == 1`. -/
def oddQuotes (masked : Line) : Bool := masked.count '"' % 2 == 1

end Dsl41.Jil
