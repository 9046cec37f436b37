import Dsl41.Conditions.Syntax
import Dsl41.Jil.Syntax

/-!
# The condition grammar

`parse_condition`: the text is read from left to right, and at each place only the terminals that
the grammar has there are tried. Blanks are ignored in front of every token.
-/

namespace Dsl41.Conditions

open Infra Oracle

/-! ## Terminals -/

/-- `WS`. -/
def isWs (c : Char) : Bool := c = ' ' || c = '\t' || c = Char.ofNat 12 || c = '\r' || c = '\n'

def skipWs (s : List Char) : List Char := s.dropWhile isWs

/-- A character of one token. -/
def punct (c : Char) (s : List Char) : Option (List Char) :=
  match skipWs s with
  | d :: rest => if d = c then some rest else none
  | [] => none

/-- One character or more of a class. -/
def charsOf (p : Char → Bool) (s : List Char) : Option (List Char × List Char) :=
  if s.takeWhile p = [] then none else some (s.takeWhile p, s.dropWhile p)

/-- A letter of a keyword, in either case: two letters have a third one. -/
def sameLetter (k c : Char) : Bool :=
  c.toLower = k || (k = 'i' && (c.toNat = 0x130 || c.toNat = 0x131)) || (k = 's' && c.toNat = 0x17F)

def takeWord : List Char → List Char → Option (List Char × List Char)
  | [], s => some ([], s)
  | k :: word, c :: s => if sameLetter k c then (takeWord word s).map fun taken => (c :: taken.1, taken.2) else none
  | _ :: _, [] => none

/-- The first of the words that the text begins with. -/
def oneOf (words : List (List Char)) (s : List Char) : Option (List Char × List Char) := words.findSome? (takeWord · s)

/-- `STATUS_KW`: the longer alternatives come first. -/
def STATUS_KW : List (List Char) :=
  ["terminated".toList, "notrunning".toList, "success".toList, "failure".toList, "done".toList, ['s'], ['f'], ['d'],
    ['t'], ['n']]

def EXITCODE_KW : List (List Char) := ["exitcode".toList, ['e']]

def VALUE_KW : List (List Char) := ["value".toList, ['v']]

def AND : List (List Char) := ["and".toList, ['&']]

def OR : List (List Char) := ["or".toList, ['|']]

def CMP_OP : List (List Char × CmpOp) :=
  [(['!', '='], .ne), (['<', '='], .le), (['>', '='], .ge), (['='], .eq), (['<'], .lt), (['>'], .gt)]

def cmpOp (s : List Char) : Option (CmpOp × List Char) :=
  CMP_OP.findSome? fun op => (takeWord op.1 s).map fun taken => (op.2, taken.2)

def isNameChar (c : Char) : Bool :=
  !(Jil.isSpace c || c = '(' || c = ')' || c = ',' || c = '^' || c = '&' || c = '|' || c = ':' || c = '\\')

/-- The characters of a class, with the escaped colons among them. -/
def escapedSpan (p : Char → Bool) : List Char → List Char × List Char
  | '\\' :: ':' :: rest => let (run, rest) := escapedSpan p rest; ('\\' :: ':' :: run, rest)
  | c :: rest => if p c then let (run, rest) := escapedSpan p rest; (c :: run, rest) else ([], c :: rest)
  | [] => ([], [])

def jobName (s : List Char) : Option (List Char × List Char) :=
  let (name, rest) := escapedSpan isNameChar s
  if name = [] then none else some (name, rest)

def isInstanceChar (c : Char) : Bool := c.isAlphanum || c = '_' || c = '#' || c = '@' || c = '$'

def isGlobalChar (c : Char) : Bool :=
  !(Jil.isSpace c || c = '(' || c = ')' || c = ',' || c = '=' || c = '<' || c = '>' || c = '!' || c = '&' || c = '|')

def isBareChar (c : Char) : Bool := !(Jil.isSpace c || c = '(' || c = ')' || c = '&' || c = '|')

/-- `QUOTED`, with its quotes. -/
def quoted : List Char → Option (List Char × List Char)
  | '"' :: rest =>
    match rest.dropWhile (· ≠ '"') with
    | _ :: after => some ('"' :: (rest.takeWhile (· ≠ '"') ++ ['"']), after)
    | [] => none
  | _ => none

/-- `global_value`: a quoted token is tried first. -/
def globalValue (s : List Char) : Option (ValueToken × List Char) :=
  match quoted s with
  | some (text, rest) => some (.quoted (String.ofList text), rest)
  | none => (charsOf isBareChar s).map fun taken => (.bare (String.ofList taken.1), taken.2)

/-- Some of the next characters of a class: one or more, up to a bound. -/
def upTo (bound : Nat) (p : Char → Bool) (s : List Char) : Option (List Char × List Char) :=
  let run := (s.take bound).takeWhile p
  if run = [] then none else some (run, s.drop run.length)

/-- `LOOKBACK_TOKEN`. -/
def lookbackToken (s : List Char) : Option (List Char × List Char) := do
  let (hours, rest) ← upTo 4 isDecimal s
  match rest with
  | '.' :: more =>
    match upTo 2 isDecimal more with
    | some (minutes, after) => some (hours ++ '.' :: minutes, after)
    | none => some (hours, rest)
  | '\\' :: ':' :: more =>
    match upTo 2 isDecimal more with
    | some (minutes, after) => some (hours ++ '\\' :: ':' :: minutes, after)
    | none => some (hours, rest)
  | _ => some (hours, rest)

/-! ## Rules -/

def jobRef (s : List Char) : Option (JobTree × List Char) := do
  let (name, rest) ← jobName (skipWs s)
  match punct '^' rest with
  | some rest => do
    let (instance_, rest) ← charsOf isInstanceChar (skipWs rest)
    some (⟨String.ofList name, some (String.ofList instance_)⟩, rest)
  | none => some (⟨String.ofList name, none⟩, rest)

section Rules

-- the length of the whole text: a place in it is told by how much is left
variable (total : Nat)

def lookback? (s : List Char) : Option (Option Token × List Char) :=
  match punct ',' s with
  | some rest => do
    let (token, after) ← lookbackToken (skipWs rest)
    some (some ⟨String.ofList token, total - (skipWs rest).length⟩, after)
  | none => some (none, s)

/-- The parentheses of a status and of an exit code. -/
def jobAndLookback (s : List Char) : Option ((JobTree × Option Token) × List Char) := do
  let rest ← punct '(' s
  let (job, rest) ← jobRef rest
  let (lookback, rest) ← lookback? total rest
  let rest ← punct ')' rest
  some ((job, lookback), rest)

def statusAtom (s : List Char) : Option (AtomTree × List Char) := do
  let (kw, rest) ← oneOf STATUS_KW s
  let ((job, lookback), rest) ← jobAndLookback total rest
  some (.status_atom (String.ofList kw) job lookback, rest)

def exitcodeAtom (s : List Char) : Option (AtomTree × List Char) := do
  let (kw, rest) ← oneOf EXITCODE_KW s
  let ((job, lookback), rest) ← jobAndLookback total rest
  let (op, rest) ← cmpOp (skipWs rest)
  let (value, rest) ← charsOf Char.isDigit (skipWs rest)
  some (.exitcode_atom (String.ofList kw) job lookback op (String.ofList value), rest)

def globalAtom (s : List Char) : Option (AtomTree × List Char) := do
  let (kw, rest) ← oneOf VALUE_KW s
  let rest ← punct '(' rest
  let (name, rest) ← charsOf isGlobalChar (skipWs rest)
  let rest ← punct ')' rest
  let (op, rest) ← cmpOp (skipWs rest)
  let (value, rest) ← globalValue (skipWs rest)
  some (.global_atom (String.ofList kw) (String.ofList name) op value, rest)

/-- `atom`: the keyword tells which one it is. -/
def atom (s : List Char) : Option (AtomTree × List Char) := (statusAtom total s).or ((exitcodeAtom total s).or (globalAtom s))

/-- The span from one place to another. -/
def spanOf (start stop : List Char) : Option CondSpan := some ⟨total - start.length, total - stop.length⟩

mutual

/-- `atom_or_group`. -/
def operand : Nat → List Char → Option (Operand × List Char)
  | 0, _ => none
  | fuel + 1, s =>
    match skipWs s with
    | '(' :: rest => do
      let (first, rest') ← operand fuel rest
      let (inner, rest') ← binops fuel (skipWs rest) (.operand first) rest'
      let after ← punct ')' rest'
      some (.paren inner (spanOf total ('(' :: rest) after), after)
    | s => do
      let (a, after) ← atom total s
      some (.atom a (spanOf total s after), after)

/-- `expr` from its first operand on: each turn is one `binop`. -/
def binops : Nat → List Char → Expr → List Char → Option (Expr × List Char)
  | 0, _, _, _ => none
  | fuel + 1, start, left, s =>
    match oneOf (AND ++ OR) (skipWs s) with
    | none => some (left, s)
    | some (op, rest) => do
      let (right, after) ← operand fuel rest
      binops fuel start (.binop left (String.ofList op) right (spanOf total start after)) after

end

end Rules

/-- The tree of a text, with some fuel. -/
def treeOf (fuel : Nat) (text : List Char) : Option Expr := do
  let (first, rest) ← operand text.length fuel text
  let (e, rest) ← binops text.length fuel (skipWs text) (.operand first) rest
  if skipWs rest = [] then some e else none

inductive ParseError where
  | unexpectedInput
  | refused (e : ConditionError)
deriving DecidableEq

/-- `parse_condition`. -/
def parseCondition (text : String) : Except ParseError Cond :=
  match treeOf (text.toList.length + 1) text.toList with
  | none => .error .unexpectedInput
  | some e => e.build.mapError .refused

/-! ## Enough fuel -/

section Lengths

variable {s rest : List Char} {total : Nat}

theorem skipWs_length : (skipWs s).length ≤ s.length := (List.dropWhile_sublist isWs).length_le

theorem punct_length {c : Char} (h : punct c s = some rest) : rest.length < s.length := by
  have hskip : (skipWs s).length ≤ s.length := skipWs_length
  unfold punct at h
  split at h
  · next d after heq =>
    split_ifs at h
    cases h
    rw [heq, List.length_cons] at hskip
    omega
  · cases h

theorem charsOf_length {p : Char → Bool} {run : List Char} (h : charsOf p s = some (run, rest)) :
    rest.length ≤ s.length := by
  unfold charsOf at h
  split_ifs at h
  cases h
  exact (List.dropWhile_sublist p).length_le

theorem takeWord_length {word taken : List Char} (h : takeWord word s = some (taken, rest)) :
    rest.length + word.length = s.length := by
  induction word generalizing s taken with
  | nil =>
    cases h
    rfl
  | cons k word ih =>
    cases s with
    | nil => cases h
    | cons c s =>
      rw [takeWord] at h
      split_ifs at h
      obtain ⟨⟨taken', rest'⟩, htaken, heq⟩ := Option.map_eq_some_iff.mp h
      cases heq
      have hlen := ih htaken
      rw [List.length_cons, List.length_cons]
      omega

theorem oneOf_length {words : List (List Char)} {taken : List Char} (hwords : ∀ word ∈ words, 0 < word.length)
    (h : oneOf words s = some (taken, rest)) : rest.length < s.length := by
  obtain ⟨word, hmem, hword⟩ := List.exists_of_findSome?_eq_some h
  have hlen := takeWord_length hword
  have hpos := hwords word hmem
  omega

theorem cmpOp_length {op : CmpOp} (h : cmpOp s = some (op, rest)) : rest.length ≤ s.length := by
  obtain ⟨word, hmem, hword⟩ := List.exists_of_findSome?_eq_some h
  obtain ⟨⟨taken, after⟩, htaken, heq⟩ := Option.map_eq_some_iff.mp hword
  cases heq
  have hlen : after.length + word.1.length = s.length := takeWord_length htaken
  exact Nat.le.intro hlen

theorem escapedSpan_length (p : Char → Bool) : ∀ s : List Char, (escapedSpan p s).2.length ≤ s.length := by
  intro s
  fun_induction escapedSpan p s with
  | case1 rest name rest' heq ih =>
    rw [heq] at ih
    exact Nat.le_add_right_of_le (Nat.le_add_right_of_le ih)
  | case2 c rest hne hchar name rest' heq ih =>
    rw [heq] at ih
    exact Nat.le_add_right_of_le ih
  | case3 c rest hne hchar => exact le_rfl
  | case4 => exact le_rfl

theorem jobName_length {name : List Char} (h : jobName s = some (name, rest)) : rest.length ≤ s.length := by
  unfold jobName at h
  dsimp only at h
  split_ifs at h
  cases h
  exact escapedSpan_length isNameChar s

theorem quoted_length {text : List Char} (h : quoted s = some (text, rest)) : rest.length ≤ s.length := by
  unfold quoted at h
  split at h
  · next more =>
    split at h
    · next c after heq =>
      cases h
      have hlen := (List.dropWhile_sublist (· ≠ '"') (l := more)).length_le
      rw [heq, List.length_cons] at hlen
      rw [List.length_cons]
      omega
    · cases h
  · cases h

theorem globalValue_length {value : ValueToken} (h : globalValue s = some (value, rest)) : rest.length ≤ s.length := by
  unfold globalValue at h
  split at h
  · next hquoted =>
    cases h
    exact quoted_length hquoted
  · obtain ⟨taken, hbare, heq⟩ := Option.map_eq_some_iff.mp h
    cases heq
    exact charsOf_length hbare

theorem upTo_length {bound : Nat} {p : Char → Bool} {run : List Char} (h : upTo bound p s = some (run, rest)) :
    rest.length ≤ s.length := by
  unfold upTo at h
  dsimp only at h
  split_ifs at h
  cases h
  exact (List.drop_sublist _ s).length_le

theorem lookbackToken_length {token : List Char} (h : lookbackToken s = some (token, rest)) :
    rest.length ≤ s.length := by
  obtain ⟨⟨hours, more⟩, hhours, h⟩ := Option.bind_eq_some_iff.mp h
  have hlen := upTo_length hhours
  dsimp only at h
  split at h
  all_goals try split at h
  all_goals cases h
  · next hminutes => exact le_trans (upTo_length hminutes) (le_trans (Nat.le_add_right _ 1) hlen)
  · exact hlen
  · next hminutes => exact le_trans (upTo_length hminutes) (le_trans (Nat.le_add_right _ 2) hlen)
  · exact hlen
  · exact hlen

theorem jobRef_length {job : JobTree} (h : jobRef s = some (job, rest)) : rest.length ≤ s.length := by
  obtain ⟨⟨name, more⟩, hname, h⟩ := Option.bind_eq_some_iff.mp h
  have hlen := le_trans (jobName_length hname) skipWs_length
  dsimp only at h
  split at h
  · next after hpunct =>
    obtain ⟨⟨inst, after'⟩, hinst, h⟩ := Option.bind_eq_some_iff.mp h
    cases h
    have hlen' : after'.length ≤ after.length := le_trans (charsOf_length hinst) skipWs_length
    have hlt := punct_length hpunct
    exact le_trans hlen' (le_trans hlt.le hlen)
  · cases h
    exact hlen

theorem lookback?_length {lookback : Option Token} (h : lookback? total s = some (lookback, rest)) :
    rest.length ≤ s.length := by
  unfold lookback? at h
  split at h
  · next after hpunct =>
    obtain ⟨⟨token, after'⟩, htoken, h⟩ := Option.bind_eq_some_iff.mp h
    cases h
    have hlen := le_trans (lookbackToken_length htoken) skipWs_length
    have hlt := punct_length hpunct
    omega
  · cases h
    exact le_rfl

theorem jobAndLookback_length {pair : JobTree × Option Token} (h : jobAndLookback total s = some (pair, rest)) :
    rest.length < s.length := by
  obtain ⟨s₁, hopen, h⟩ := Option.bind_eq_some_iff.mp h
  obtain ⟨⟨job, s₂⟩, hjob, h⟩ := Option.bind_eq_some_iff.mp h
  obtain ⟨⟨lookback, s₃⟩, hlookback, h⟩ := Option.bind_eq_some_iff.mp h
  obtain ⟨s₄, hclose, h⟩ := Option.bind_eq_some_iff.mp h
  cases h
  have h₁ := punct_length hopen
  have h₂ := jobRef_length hjob
  have h₃ := lookback?_length hlookback
  have h₄ := punct_length hclose
  omega

theorem atom_length {a : AtomTree} (h : atom total s = some (a, rest)) : rest.length < s.length := by
  have hkw {words : List (List Char)} {kw : List Char} {rest : List Char} (h : oneOf words s = some (kw, rest)) :
      rest.length ≤ s.length := by
    obtain ⟨word, -, hword⟩ := List.exists_of_findSome?_eq_some h
    exact Nat.le.intro (takeWord_length hword)
  rcases Option.or_eq_some_iff.mp h with h | ⟨-, h⟩
  · obtain ⟨⟨kw, s₁⟩, h₁, h⟩ := Option.bind_eq_some_iff.mp h
    obtain ⟨⟨pair, s₂⟩, h₂, h⟩ := Option.bind_eq_some_iff.mp h
    cases h
    exact lt_of_lt_of_le (jobAndLookback_length h₂) (hkw h₁)
  · rcases Option.or_eq_some_iff.mp h with h | ⟨-, h⟩
    · obtain ⟨⟨kw, s₁⟩, h₁, h⟩ := Option.bind_eq_some_iff.mp h
      obtain ⟨⟨pair, s₂⟩, h₂, h⟩ := Option.bind_eq_some_iff.mp h
      obtain ⟨⟨op, s₃⟩, h₃, h⟩ := Option.bind_eq_some_iff.mp h
      obtain ⟨⟨value, s₄⟩, h₄, h⟩ := Option.bind_eq_some_iff.mp h
      cases h
      have hlt := lt_of_lt_of_le (jobAndLookback_length h₂) (hkw h₁)
      have hop := le_trans (cmpOp_length h₃) skipWs_length
      have hvalue := le_trans (charsOf_length h₄) skipWs_length
      omega
    · obtain ⟨⟨kw, s₁⟩, h₁, h⟩ := Option.bind_eq_some_iff.mp h
      obtain ⟨s₂, h₂, h⟩ := Option.bind_eq_some_iff.mp h
      obtain ⟨⟨name, s₃⟩, h₃, h⟩ := Option.bind_eq_some_iff.mp h
      obtain ⟨s₄, h₄, h⟩ := Option.bind_eq_some_iff.mp h
      obtain ⟨⟨op, s₅⟩, h₅, h⟩ := Option.bind_eq_some_iff.mp h
      obtain ⟨⟨value, s₆⟩, h₆, h⟩ := Option.bind_eq_some_iff.mp h
      cases h
      have hkw' := hkw h₁
      have hopen := punct_length h₂
      have hname := le_trans (charsOf_length h₃) skipWs_length
      have hclose := punct_length h₄
      have hop := le_trans (cmpOp_length h₅) skipWs_length
      have hvalue := le_trans (globalValue_length h₆) skipWs_length
      omega

mutual

theorem operand_length : ∀ (fuel : Nat) {s rest : List Char} {o : Operand},
    operand total fuel s = some (o, rest) → rest.length < s.length
  | fuel + 1, s, rest, o, h => by
    have hskip : (skipWs s).length ≤ s.length := skipWs_length
    rw [operand] at h
    split at h
    · next more heq =>
      rw [heq, List.length_cons] at hskip
      obtain ⟨⟨first, s₁⟩, hfirst, h⟩ := Option.bind_eq_some_iff.mp h
      obtain ⟨⟨inner, s₂⟩, hinner, h⟩ := Option.bind_eq_some_iff.mp h
      obtain ⟨s₃, hclose, h⟩ := Option.bind_eq_some_iff.mp h
      cases h
      have h₁ : s₁.length < more.length := operand_length fuel hfirst
      have h₂ : s₂.length ≤ s₁.length := binops_length fuel hinner
      have h₃ := punct_length hclose
      omega
    · obtain ⟨⟨a, after⟩, hatom, h⟩ := Option.bind_eq_some_iff.mp h
      cases h
      exact lt_of_lt_of_le (atom_length hatom) hskip

theorem binops_length : ∀ (fuel : Nat) {start s rest : List Char} {left e : Expr},
    binops total fuel start left s = some (e, rest) → rest.length ≤ s.length
  | fuel + 1, start, s, rest, left, e, h => by
    rw [binops] at h
    split at h
    · cases h
      exact le_rfl
    · next op more hop =>
      have hlen := lt_of_lt_of_le (oneOf_length (by decide) hop) skipWs_length
      obtain ⟨⟨right, after⟩, hright, h⟩ := Option.bind_eq_some_iff.mp h
      have h₁ : after.length < more.length := operand_length fuel hright
      have h₂ : rest.length ≤ after.length := binops_length fuel h
      omega

end

end Lengths

mutual

theorem operand_fuel {total : Nat} : ∀ (fuel fuel' : Nat) {s : List Char}, s.length < fuel → s.length < fuel' →
    operand total fuel s = operand total fuel' s
  | fuel + 1, fuel' + 1, s, h, h' => by
    have hskip : (skipWs s).length ≤ s.length := skipWs_length
    rw [operand, operand]
    split
    · next more heq =>
      rw [heq, List.length_cons] at hskip
      rw [operand_fuel fuel fuel' (s := more) (by omega) (by omega)]
      refine Option.bind_congr fun ⟨first, s₁⟩ hfirst => ?_
      have hlen : s₁.length < more.length := operand_length fuel' hfirst
      dsimp only
      rw [binops_fuel fuel fuel' (s := s₁) (by omega) (by omega)]
    · rfl

theorem binops_fuel {total : Nat} : ∀ (fuel fuel' : Nat) {start s : List Char} {left : Expr}, s.length < fuel →
    s.length < fuel' → binops total fuel start left s = binops total fuel' start left s
  | fuel + 1, fuel' + 1, start, s, left, h, h' => by
    rw [binops, binops]
    split
    · rfl
    · next op more hop =>
      have hlen := lt_of_lt_of_le (oneOf_length (by decide) hop) skipWs_length
      rw [operand_fuel fuel fuel' (s := more) (by omega) (by omega)]
      refine Option.bind_congr fun ⟨right, after⟩ hright => ?_
      have hlen' : after.length < more.length := operand_length fuel' hright
      exact binops_fuel fuel fuel' (by omega) (by omega)

end

end Dsl41.Conditions
