import Dsl41.Conditions.Canonical
import Dsl41.Infra.Json.Grammar
import Dsl41.Infra.Text

/-!
# Condition source

`cond_to_source` renders a condition tree in the condition language; the one value that it refuses
has a quote of its own and is not bare.
-/

namespace Dsl41.Conditions

open Infra Infra.Json Oracle

/-! ## Rendering -/

inductive DslError where
  | embeddedQuote (value : String)
deriving DecidableEq

/-- `STATUS_LETTER`. -/
def statusLetter : AtomStatus → Char
  | .success => 's'
  | .failure => 'f'
  | .done => 'd'
  | .terminated => 't'
  | .notRunning => 'n'

/-- `name.replace(":", "\\:")`. -/
def escape : List Char → List Char
  | [] => []
  | c :: rest => if c = ':' then '\\' :: ':' :: escape rest else c :: escape rest

/-- A number in two digits at least. -/
def twoDigits (i : Int) : List Char := if 0 ≤ i ∧ i < 10 then '0' :: intText i else intText i

/-- `_lookback_token`. -/
def lookbackText (l : Lookback) : List Char :=
  if l.raw ≠ "" then l.raw.toList
  else match l.kind with
    | .zero => ['0']
    | .indefinite => ['9', '9', '9', '9']
    | .window minutes => twoDigits (minutes / 60) ++ '.' :: twoDigits (minutes % 60)

/-- `_job_ref_source`. -/
def refSource (job : JobRef) : List Char :=
  escape job.name.toList ++ match job.instance_ with
    | none => []
    | some instance_ => '^' :: instance_.toList

/-- The parentheses of a status and of an exit code. -/
def headSource (job : JobRef) (lookback : Option Lookback) : List Char :=
  '(' :: (refSource job ++ match lookback with
    | none => [')']
    | some l => ',' :: ' ' :: (lookbackText l ++ [')']))

/-- `_BARE_GLOBAL_VALUE_RE`. -/
def isBareText (value : List Char) : Bool :=
  value ≠ [] && value.all fun c => c.isAlphanum || c = '_' || c = '.' || c = '-'

def valueSource (value : String) : Except DslError (List Char) :=
  if isBareText value.toList then .ok value.toList
  else if '"' ∈ value.toList then .error (.embeddedQuote value)
  else .ok ('"' :: (value.toList ++ ['"']))

def Cond.isNode : Cond → Bool
  | .and _ _ => true
  | .or _ _ => true
  | _ => false

/-- An operand that is a node of either operator stands in parentheses. -/
def group (c : Cond) (s : List Char) : List Char := if c.isNode then '(' :: (s ++ [')']) else s

mutual

def source : Cond → Except DslError (List Char)
  | .paren inner _ => do return '(' :: ((← source inner) ++ [')'])
  | .and operands _ => do return join [' ', '&', ' '] (← sources operands)
  | .or operands _ => do return join [' ', '|', ' '] (← sources operands)
  | .status job status lookback _ => .ok (statusLetter status :: headSource job lookback)
  | .exitcode job op value lookback _ =>
    .ok ('e' :: (headSource job lookback ++ ' ' :: ((CmpOp.text op).toList ++ ' ' :: intText value)))
  | .global name op value _ => do
    let value ← valueSource value
    return 'v' :: '(' :: (name.toList ++ ')' :: ' ' :: ((CmpOp.text op).toList ++ ' ' :: value))

def sources : List Cond → Except DslError (List (List Char))
  | [] => .ok []
  | operand :: rest => do
    let s ← source operand
    return group operand s :: (← sources rest)

end

/-- `cond_to_source`. -/
def condToSource (c : Cond) : Except DslError String := String.ofList <$> source c

/-! ## What is refused -/

mutual

/-- The values of the globals that a condition compares. -/
def Cond.globalValues : Cond → List String
  | .global _ _ value _ => [value]
  | .and operands _ => allGlobalValues operands
  | .or operands _ => allGlobalValues operands
  | .paren inner _ => inner.globalValues
  | _ => []

def allGlobalValues : List Cond → List String
  | [] => []
  | c :: rest => c.globalValues ++ allGlobalValues rest

end

/-- The value refused has a quote of its own. -/
def Refuses (values : List String) (e : DslError) : Prop := ∃ value ∈ values, '"' ∈ value.toList ∧ e = .embeddedQuote value

mutual

theorem source_error : ∀ (c : Cond) {e : DslError}, source c = .error e → Refuses c.globalValues e
  | .paren inner span, e, h => by
    rcases bind_eq_error.mp h with h | ⟨t, -, h⟩
    · exact source_error inner h
    · cases h
  | .and operands span, e, h => by
    rcases bind_eq_error.mp h with h | ⟨parts, -, h⟩
    · exact sources_error operands h
    · cases h
  | .or operands span, e, h => by
    rcases bind_eq_error.mp h with h | ⟨parts, -, h⟩
    · exact sources_error operands h
    · cases h
  | .status job st lookback span, e, h => nomatch h
  | .exitcode job op value lookback span, e, h => nomatch h
  | .global name op value span, e, h => by
    rcases bind_eq_error.mp h with h | ⟨text, -, h⟩
    · unfold valueSource at h
      split_ifs at h with hbare hquote
      cases h
      exact ⟨value, List.mem_singleton.mpr rfl, hquote, rfl⟩
    · cases h

theorem sources_error : ∀ (operands : List Cond) {e : DslError}, sources operands = .error e →
    Refuses (allGlobalValues operands) e
  | c :: operands, e, h => by
    rcases bind_eq_error.mp h with h | ⟨s, -, h⟩
    · obtain ⟨value, hmem, hquote, he⟩ := source_error c h
      exact ⟨value, List.mem_append_left _ hmem, hquote, he⟩
    rcases bind_eq_error.mp h with h | ⟨parts, -, h⟩
    · obtain ⟨value, hmem, hquote, he⟩ := sources_error operands h
      exact ⟨value, List.mem_append_right _ hmem, hquote, he⟩
    · cases h

end

end Dsl41.Conditions
