import Dsl41.Infra.Result
import Dsl41.Oracle.Catalog

/-!
# Condition trees

The parse trees of the condition grammar, the condition tree with its spans and verbatim lookback
tokens, and `_build` from the one to the other. The grammar has one left-recursive level, so a parse
tree leans to the left; `_build` walks that spine to its first operand and folds it back.
-/

namespace Dsl41.Conditions

open Infra Oracle

/-! ## The condition tree -/

structure CondSpan where
  start : Nat
  stop : Nat
deriving DecidableEq

structure Lookback where
  kind : Oracle.Lookback
  raw : String
deriving DecidableEq

inductive Cond where
  | status (job : JobRef) (status : AtomStatus) (lookback : Option Lookback) (span : Option CondSpan)
  | exitcode (job : JobRef) (op : CmpOp) (value : Int) (lookback : Option Lookback) (span : Option CondSpan)
  | global (name : String) (op : CmpOp) (value : String) (span : Option CondSpan)
  | and (operands : List Cond) (span : Option CondSpan)
  | or (operands : List Cond) (span : Option CondSpan)
  | paren (inner : Cond) (span : Option CondSpan)

mutual

/-- What the interpreter reads of a condition: neither spans nor the tokens of lookbacks. -/
def Cond.erase : Cond → Oracle.Cond
  | .status job status lookback _ => .atom (.status ⟨job, status, lookback.map (·.kind)⟩)
  | .exitcode job op value lookback _ => .atom (.exitCode ⟨job, op, value, lookback.map (·.kind)⟩)
  | .global name op value _ => .atom (.global ⟨name, op, value⟩)
  | .and operands _ => .and (eraseAll operands)
  | .or operands _ => .or (eraseAll operands)
  | .paren inner _ => .paren inner.erase

def eraseAll : List Cond → List Oracle.Cond
  | [] => []
  | c :: rest => c.erase :: eraseAll rest

end

/-! ## Parse trees -/

structure Token where
  text : String
  start_pos : Nat

/-- `job_ref`: the name as it is spelled, and the instance. -/
structure JobTree where
  name : String
  instance_ : Option String

/-- `global_value`: the text of a quoted token has its quotes. -/
inductive ValueToken where
  | quoted (text : String)
  | bare (text : String)

inductive AtomTree where
  | status_atom (kw : String) (job : JobTree) (lookback : Option Token)
  | exitcode_atom (kw : String) (job : JobTree) (lookback : Option Token) (op : CmpOp) (value : String)
  | global_atom (kw : String) (name : String) (op : CmpOp) (value : ValueToken)

mutual

/-- `atom_or_group`, with the span of its node. -/
inductive Operand where
  | atom (a : AtomTree) (span : Option CondSpan)
  | paren (inner : Expr) (span : Option CondSpan)

/-- `expr`; `op` is the text of the operator. -/
inductive Expr where
  | operand (o : Operand)
  | binop (left : Expr) (op : String) (right : Operand) (span : Option CondSpan)

end

/-! ## Lookback tokens -/

/-- A refusal of the lowering, with the token and its position, or the keyword that no table has. -/
inductive ConditionError where
  | malformedLookback (raw : String) (pos : Nat)
  | lookbackMinutes (raw : String) (pos : Nat)
  | keyError (key : String)
deriving DecidableEq

/-- The zeros of the decimal digits. -/
def decimalZeros : List Nat :=
  [0x0030, 0x0660, 0x06F0, 0x07C0, 0x0966, 0x09E6, 0x0A66, 0x0AE6, 0x0B66, 0x0BE6, 0x0C66, 0x0CE6, 0x0D66, 0x0DE6,
    0x0E50, 0x0ED0, 0x0F20, 0x1040, 0x1090, 0x17E0, 0x1810, 0x1946, 0x19D0, 0x1A80, 0x1A90, 0x1B50, 0x1BB0, 0x1C40,
    0x1C50, 0xA620, 0xA8D0, 0xA900, 0xA9D0, 0xA9F0, 0xAA50, 0xABF0, 0xFF10, 0x104A0, 0x10D30, 0x11066, 0x110F0,
    0x11136, 0x111D0, 0x112F0, 0x11450, 0x114D0, 0x11650, 0x116C0, 0x11730, 0x118E0, 0x11950, 0x11C50, 0x11D50,
    0x11DA0, 0x11F50, 0x16A60, 0x16AC0, 0x16B50, 0x1D7CE, 0x1D7D8, 0x1D7E2, 0x1D7EC, 0x1D7F6, 0x1E140, 0x1E2F0,
    0x1E4F0, 0x1E950, 0x1FBF0]

/-- The value of a decimal digit, as `\d` and `int` take it. -/
def decimalValue (c : Char) : Option Nat :=
  (decimalZeros.find? fun first => first ≤ c.toNat ∧ c.toNat < first + 10).map (c.toNat - ·)

def isDecimal (c : Char) : Bool := (decimalValue c).isSome

/-- `int`, of decimal digits. -/
def intOf (digits : List Char) : Nat := digits.foldl (fun n c => 10 * n + (decimalValue c).getD 0) 0

/-- `_LOOKBACK_RE.match`: the hours, and the minutes of either spelling. -/
def lookbackGroups (raw : List Char) : Option (List Char × Option (List Char)) :=
  let hours := raw.takeWhile isDecimal
  let minutes? (mm : List Char) : Option (List Char × Option (List Char)) :=
    if mm.all isDecimal ∧ 1 ≤ mm.length ∧ mm.length ≤ 2 then some (hours, some mm) else none
  if 1 ≤ hours.length ∧ hours.length ≤ 4 then
    match raw.dropWhile isDecimal with
    | [] => some (hours, none)
    | '.' :: mm => minutes? mm
    | '\\' :: ':' :: mm => minutes? mm
    | _ => none
  else none

def parseLookback (raw : String) (pos : Nat) : Except ConditionError Lookback :=
  match lookbackGroups raw.toList with
  | none => .error (.malformedLookback raw pos)
  | some (hours, none) =>
    if intOf hours = 0 then .ok ⟨.zero, raw⟩
    else if raw = "9999" then .ok ⟨.indefinite, raw⟩
    else .ok ⟨.window (intOf hours * 60), raw⟩
  | some (hours, some mm) =>
    if 59 < intOf mm then .error (.lookbackMinutes raw pos)
    else .ok ⟨.window (intOf hours * 60 + intOf mm), raw⟩

/-! ## From the parse tree to the condition tree -/

/-- `_STATUS_BY_KW`. -/
def statusByKw : List (String × AtomStatus) :=
  [("success", .success), ("s", .success), ("failure", .failure), ("f", .failure), ("done", .done), ("d", .done),
    ("terminated", .terminated), ("t", .terminated), ("notrunning", .notRunning), ("n", .notRunning)]

/-- `str.lower`, of the letters a keyword has. -/
def lower (s : String) : String := String.ofList (s.toList.map Char.toLower)

/-- `text.replace("\\:", ":")`. -/
def unescape : List Char → List Char
  | '\\' :: ':' :: rest => ':' :: unescape rest
  | c :: rest => c :: unescape rest
  | [] => []

def unescapeJobName (text : String) : String := String.ofList (unescape text.toList)

def JobTree.build (job : JobTree) : JobRef := ⟨unescapeJobName job.name, job.instance_⟩

/-- `_lookback`, where the atom has one. -/
def buildLookback : Option Token → Except ConditionError (Option Lookback)
  | none => .ok none
  | some token => do return some (← parseLookback token.text token.start_pos)

def ValueToken.build : ValueToken → String
  | .quoted text => String.ofList (text.toList.drop 1).dropLast
  | .bare text => text

def AtomTree.build (span : Option CondSpan) : AtomTree → Except ConditionError Cond
  | .status_atom kw job lookback => do
    let lookback ← buildLookback lookback
    match statusByKw.lookup (lower kw) with
    | none => .error (.keyError (lower kw))
    | some status => return .status job.build status lookback span
  | .exitcode_atom _ job lookback op value => do
    return .exitcode job.build op (intOf value.toList) (← buildLookback lookback) span
  | .global_atom _ name op value => return .global name op value.build span

/-- `_combine`: a run of one operator is one node, and a group never joins it. -/
def combine (is_and : Bool) (left right : Cond) (span : Option CondSpan) : Cond :=
  if is_and then
    .and (match left with
      | .and operands _ => operands ++ [right]
      | _ => [left, right]) span
  else
    .or (match left with
      | .or operands _ => operands ++ [right]
      | _ => [left, right]) span

def isAnd (op : String) : Bool := lower op ∈ ["&", "and"]

/-- A step of the spine: the operator, the tree of the right operand, built when the fold comes to
it, and the span. -/
abbrev SpineStep := Bool × Except ConditionError Cond × Option CondSpan

/-- One step of the fold over the spine. -/
def foldStep (result : Cond) (step : SpineStep) : Except ConditionError Cond := do
  return combine step.1 result (← step.2.1) step.2.2

mutual

/-- `_build`, of an atom or a group. -/
def Operand.build : Operand → Except ConditionError Cond
  | .atom a span => a.build span
  | .paren inner span => do
    let result ← inner.leftmost
    return .paren (← inner.spine.reverse.foldlM foldStep result) span

/-- The end of the walk down the left spine. -/
def Expr.leftmost : Expr → Except ConditionError Cond
  | .operand o => o.build
  | .binop left _ _ _ => left.leftmost

/-- The steps met on the walk, the last operator first. -/
def Expr.spine : Expr → List SpineStep
  | .operand _ => []
  | .binop left op right span => (isAnd op, right.build, span) :: left.spine

end

/-- `_build`. -/
def Expr.build (e : Expr) : Except ConditionError Cond := do
  let result ← e.leftmost
  e.spine.reverse.foldlM foldStep result

end Dsl41.Conditions
