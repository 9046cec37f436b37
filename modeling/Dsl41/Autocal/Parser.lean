import Dsl41.Autocal.Rules

/-!
# Rules

One rule as an expression over tokens: its parser, its value on a day, and the form of a rule that
only excludes.
-/

namespace Dsl41.Autocal

open Timing

/-! ## Expressions -/

inductive Node
  | tok (t : Token)
  | not (inner : Node)
  | and (left right : Node)
  | or (left right : Node)

namespace Node

/-- `_eval`. -/
def eval (day : Day) (ctx : Ctx) : Node → Bool
  | tok t => if t.exclusive then !t.base day ctx else t.base day ctx
  | not inner => !inner.eval day ctx
  | and left right => left.eval day ctx && right.eval day ctx
  | or left right => left.eval day ctx || right.eval day ctx

/-- `_walk_tokens`. -/
def tokens : Node → List Token
  | tok t => [t]
  | not inner => inner.tokens
  | and left right => left.tokens ++ right.tokens
  | or left right => left.tokens ++ right.tokens

/-- `_exclusion_base`: of a rule that only excludes, the node it excludes. -/
def exclusionBase : Node → Option Node
  | tok t => if t.exclusive then some (tok { t with exclusive := false }) else none
  | not inner => if inner.exclusionBase.isSome then none else some inner
  | and _ _ => none
  | or _ _ => none

end Node

/-! ## The tokens of a rule -/

/-- A piece of a rule: a parenthesis or an operator sign, or a word. -/
inductive Piece
  | opens | closes | ampersand | bar
  | word (text : String)
deriving DecidableEq

def Piece.text : Piece → String
  | opens => "("
  | closes => ")"
  | ampersand => "&"
  | bar => "|"
  | word text => text

/-- The signs; braces group like parentheses. -/
def signOf : Char → Option Piece
  | '(' | '\x7b' => some .opens
  | ')' | '\x7d' => some .closes
  | '&' => some .ampersand
  | '|' => some .bar
  | _ => none

def isLetter (c : Char) : Bool := 'a' ≤ c && c ≤ 'z' || 'A' ≤ c && c ≤ 'Z'

def isTokenChar (c : Char) : Bool := isLetter c || '0' ≤ c && c ≤ '9' || c = '#'

/-- A character outside a word: a blank, a sign, or the first one of a word. -/
def enter (rule : String) (c : Char) : Except CalendarRuleError (List Piece × Option (List Char)) :=
  if Jil.isSpace c then .ok ([], none)
  else
    match signOf c with
    | some sign => .ok ([sign], none)
    | none => if isLetter c then .ok ([], some [c]) else .error (.unexpectedCharacter rule c)

/-- The word that ends, written backwards. -/
def ended (word : Option (List Char)) : List Piece := word.toList.map fun cs => .word (.ofList cs.reverse)

/-- `_tokenize`, in the middle of a word when there is one. -/
def tokenize (rule : String) : Option (List Char) → List Char → Except CalendarRuleError (List Piece)
  | word, [] => .ok (ended word)
  | word, c :: rest =>
    match word, isTokenChar c with
    | some cs, true => tokenize rule (some (c :: cs)) rest
    | _, _ => do
      let (pieces, next) ← enter rule c
      return ended word ++ pieces ++ (← tokenize rule next rest)

/-! ## The parser -/

abbrev Parsed := Except CalendarRuleError (Node × List Piece)

/-- `_BINARY_OPS`. -/
def binaryOp : Piece → Option (Node → Node → Node)
  | .ampersand => some .and
  | .bar => some .or
  | .word text =>
    match text.toList.map Char.toLower with
    | ['a', 'n', 'd'] => some .and
    | ['o', 'r'] => some .or
    | _ => none
  | _ => none

/-- The loop of `expr`, as many turns as there are pieces left at most. -/
def operands (rule : String) (term : List Piece → Parsed) : Nat → Node → List Piece → Parsed
  | n + 1, node, op :: rest =>
    if op = .closes then .ok (node, op :: rest)
    else
      match binaryOp op with
      | none => .error (.expectedOperator rule op.text)
      | some join => do
        let (right, rest) ← term rest
        operands rule term n (join node right) rest
  | _, node, toks => .ok (node, toks)

/-- `expr`, over the terms of its depth. -/
def expr (rule : String) (term : List Piece → Parsed) (toks : List Piece) : Parsed := do
  let (node, rest) ← term toks
  operands rule term rest.length node rest

/-- `term`, by how much deeper it may nest. -/
def term (rule : String) : Nat → List Piece → Parsed
  | 0, _ => .error (.nesting rule)
  | _ + 1, [] => .error (.dangling rule)
  | depth + 1, .opens :: rest => do
    let (node, rest) ← expr rule (term rule depth) rest
    match rest with
    | .closes :: rest => return (node, rest)
    | _ => throw (.missingParen rule)
  | depth + 1, .word text :: rest =>
    if text.toList.map Char.toLower = ['n', 'o', 't'] then do
      let (inner, rest) ← term rule depth rest
      return (.not inner, rest)
    else do
      return (.tok (← parseToken text), rest)
  | _ + 1, sign :: _ => .error (.unexpected rule sign.text)

/-- `_parse_rule`. -/
def parseRule (rule : String) : Except CalendarRuleError Node := do
  let toks ← tokenize rule none rule.toList
  let (node, rest) ← expr rule (term rule 101) toks
  if rest ≠ [] then throw (.trailing rule)
  return node

/-! ## The loop has turns enough -/

variable {rule : String} {terms : List Piece → Parsed} {node : Node} {toks rest : List Piece}

/-- The terms leave fewer pieces than they are given. -/
def Consumes (terms : List Piece → Parsed) : Prop :=
  ∀ toks node rest, terms toks = .ok (node, rest) → rest.length < toks.length

theorem operands_length (h : Consumes terms) : ∀ {n : Nat} {node result : Node} {toks rest : List Piece},
    operands rule terms n node toks = .ok (result, rest) → rest.length ≤ toks.length
  | 0, node, result, toks, rest, heq => by
    obtain ⟨-, rfl⟩ := Prod.mk.injEq .. ▸ Except.ok.inj heq
    exact le_rfl
  | n + 1, node, result, [], rest, heq => by
    obtain ⟨-, rfl⟩ := Prod.mk.injEq .. ▸ Except.ok.inj heq
    exact le_rfl
  | n + 1, node, result, op :: toks, rest, heq => by
    rw [operands] at heq
    split at heq
    · obtain ⟨-, rfl⟩ := Prod.mk.injEq .. ▸ Except.ok.inj heq
      exact le_rfl
    · split at heq
      · cases heq
      · obtain ⟨⟨right, mid⟩, hterm, heq⟩ := Infra.bind_eq_ok.mp heq
        have hlt := h _ _ _ hterm
        have hle := operands_length h heq
        rw [List.length_cons]
        omega

theorem expr_length (h : Consumes terms) : Consumes (expr rule terms) := by
  intro toks node rest heq
  obtain ⟨⟨first, mid⟩, hterm, heq⟩ := Infra.bind_eq_ok.mp heq
  exact lt_of_le_of_lt (operands_length h heq) (h _ _ _ hterm)

theorem term_length : ∀ depth, Consumes (term rule depth)
  | 0, _, _, _, heq => nomatch heq
  | _ + 1, [], _, _, heq => nomatch heq
  | depth + 1, .opens :: toks, node, rest, heq => by
    obtain ⟨⟨inner, mid⟩, hexpr, heq⟩ := Infra.bind_eq_ok.mp heq
    have hlt := expr_length (term_length depth) _ _ _ hexpr
    dsimp only at heq
    split at heq
    · cases heq
      rw [List.length_cons] at *
      omega
    · cases heq
  | depth + 1, .word text :: toks, node, rest, heq => by
    rw [term] at heq
    split at heq
    · obtain ⟨⟨inner, mid⟩, hterm, heq⟩ := Infra.bind_eq_ok.mp heq
      cases heq
      exact Nat.lt_succ_of_lt (term_length depth _ _ _ hterm)
    · obtain ⟨tok, -, heq⟩ := Infra.bind_eq_ok.mp heq
      cases heq
      exact Nat.lt_succ_self _
  | _ + 1, .closes :: _, _, _, heq => nomatch heq
  | _ + 1, .ampersand :: _, _, _, heq => nomatch heq
  | _ + 1, .bar :: _, _, _, heq => nomatch heq

/-- One turn more than pieces changes nothing. -/
theorem operands_succ (h : Consumes terms) : ∀ {n : Nat} {node : Node} {toks : List Piece}, toks.length ≤ n →
    operands rule terms (n + 1) node toks = operands rule terms n node toks
  | 0, node, [], _ => rfl
  | n + 1, node, [], _ => rfl
  | n + 1, node, op :: toks, hn => by
    rw [operands, operands]
    split
    · rfl
    · split
      · rfl
      · cases hterm : terms toks with
        | error e => rfl
        | ok r =>
          have hlt : r.2.length < toks.length := h _ _ _ hterm
          exact operands_succ h (le_trans hlt.le (Nat.le_of_succ_le_succ hn))

/-- The loop has turns enough: more of them change nothing. -/
theorem operands_of_le (h : Consumes terms) {n : Nat} (hn : toks.length ≤ n) :
    operands rule terms n node toks = operands rule terms toks.length node toks := by
  induction n, hn using Nat.le_induction with
  | base => rfl
  | succ n hn ih => rw [operands_succ h hn, ih]

/-- A word after "not" is excluded; the words "and" and "or" join as the signs do. -/
example : (parseRule "not cycle and {daily|mon}").toOption.map (fun node => node.tokens.length) = some 3 := by decide +kernel

end Dsl41.Autocal
