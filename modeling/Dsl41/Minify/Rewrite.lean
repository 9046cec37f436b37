import Dsl41.Conditions.Render
import Dsl41.Conditions.Parser
import Dsl41.Infra.Edits

/-!
# The rewrite of a condition

`rewrite_condition` renames the identifiers of a condition in its text. It has the places of the atoms
from the parser and finds the tokens inside an atom by searches of its own. The allocator is taken
as the maps it makes: a name that comes again is given the same new name.
-/

namespace Dsl41.Minify

open Infra Conditions

/-! ## The allocator -/

inductive Namespace where
  | instance_ | global
deriving DecidableEq

structure Allocator where
  job : String → String
  simple : Namespace → String → String
  gvalue : String → String

inductive RewriteError where
  | parse (e : ParseError)
  | noSpan
  | noParen (body : List Char)
  | noJobReference (body : List Char)
  | noGlobalName (body : List Char)
deriving DecidableEq

/-! ## Searches -/

/-- A pattern's first match: what stands before it, what it takes, and what follows. -/
def search {α : Type} (pattern : List Char → Option (α × List Char)) :
    List Char → Option (List Char × α × List Char)
  | [] => (pattern []).map fun found => ([], found)
  | c :: s =>
    match pattern (c :: s) with
    | some found => some ([], found)
    | none => (search pattern s).map fun found => (c :: found.1, found.2)

/-- `body.index("(")`: the text up to it, and what follows. -/
def afterParen (body : List Char) : Except RewriteError (List Char × List Char) :=
  match body.dropWhile (· ≠ '(') with
  | [] => .error (.noParen body)
  | paren :: rest => .ok (body.takeWhile (· ≠ '(') ++ [paren], rest)

/-- `_COMPARAND_RE`: the parenthesis and the operator, the value, and what follows. -/
def comparand : List Char → Option ((List Char × List Char) × List Char)
  | ')' :: s =>
    let blanks := s.takeWhile Jil.isSpace
    CMP_OP.findSome? fun op => do
      let (op, rest) ← takeWord op.1 (s.dropWhile Jil.isSpace)
      let blanks' := rest.takeWhile Jil.isSpace
      let (raw, rest) ← (quoted (rest.dropWhile Jil.isSpace)).or (charsOf isBareChar (rest.dropWhile Jil.isSpace))
      some ((')' :: (blanks ++ (op ++ blanks')), raw), rest)
  | _ => none

/-! ## Atoms -/

def escapeJobName (name : String) : List Char := escape name.toList

/-- `_rewrite_job_atom`. -/
def rewriteJobAtom (alloc : Allocator) (body : List Char) : Except RewriteError (List Char) := do
  let (head, tail) ← afterParen body
  match search jobName tail with
  | none => .error (.noJobReference body)
  | some (before, name, after) =>
    let new_name := escapeJobName (alloc.job (unescapeJobName (String.ofList name)))
    match after with
    | '^' :: rest =>
      match charsOf isInstanceChar rest with
      | some (inst, rest) =>
        let new_instance := (alloc.simple .instance_ (String.ofList inst)).toList
        return head ++ (before ++ (new_name ++ '^' :: (new_instance ++ rest)))
      | none => return head ++ (before ++ (new_name ++ after))
    | _ => return head ++ (before ++ (new_name ++ after))

/-- The text of a mapped value: a raw text in quotes is mapped between them. -/
def rewriteValue (alloc : Allocator) (raw : List Char) : List Char :=
  if raw.head? = some '"' ∧ raw.getLast? = some '"' then
    '"' :: ((alloc.gvalue (String.ofList (raw.drop 1).dropLast)).toList ++ ['"'])
  else (alloc.gvalue (String.ofList raw)).toList

/-- `_rewrite_global_atom`. -/
def rewriteGlobalAtom (alloc : Allocator) (body : List Char) : Except RewriteError (List Char) := do
  let (head, tail) ← afterParen body
  match search (charsOf isGlobalChar) tail with
  | none => .error (.noGlobalName body)
  | some (before, name, after) =>
    let new_name := (alloc.simple .global (String.ofList name)).toList
    match search comparand after with
    | none => return head ++ (before ++ (new_name ++ after))
    | some (between, (lead, raw), rest) =>
      return head ++ (before ++ (new_name ++ (between ++ (lead ++ (rewriteValue alloc raw ++ rest)))))

/-! ## Conditions -/

mutual

/-- `iter_atoms`: the atoms in source order. -/
def iterAtoms : Cond → List Cond
  | .and operands _ => iterAll operands
  | .or operands _ => iterAll operands
  | .paren inner _ => iterAtoms inner
  | atom => [atom]

def iterAll : List Cond → List Cond
  | [] => []
  | operand :: operands => iterAtoms operand ++ iterAll operands

end

/-- `text[start:stop]`. -/
def textOf (text : List Char) (span : CondSpan) : List Char := (text.take span.stop).drop span.start

def atomSpan : Cond → Option CondSpan
  | .status _ _ _ span | .exitcode _ _ _ _ span | .global _ _ _ span | .and _ span | .or _ span | .paren _ span =>
    span

def rewriteAtom (alloc : Allocator) (atom : Cond) (body : List Char) : Except RewriteError (List Char) :=
  match atom with
  | .global _ _ _ _ => rewriteGlobalAtom alloc body
  | .status _ _ _ _ | .exitcode _ _ _ _ _ => rewriteJobAtom alloc body
  | _ => .ok body

/-- The edit of an atom. -/
def editOf (alloc : Allocator) (text : List Char) (atom : Cond) : Except RewriteError (Edit Char) :=
  match atomSpan atom with
  | none => .error .noSpan
  | some span => do
    let body ← rewriteAtom alloc atom (textOf text span)
    return { start := span.start, stop := span.stop, replacement := body }

/-- `rewrite_condition`. -/
def rewriteCondition (alloc : Allocator) (text : String) : Except RewriteError String := do
  let cond ← (parseCondition text).mapError .parse
  let edits ← (iterAtoms cond).mapM (editOf alloc text.toList)
  return String.ofList (applyEdits edits text.toList)

end Dsl41.Minify
