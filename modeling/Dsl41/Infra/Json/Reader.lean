import Mathlib.Data.List.Lex
import Mathlib.Order.Basic

/-!
# A JSON reader

The reader of a standard library, over strings as it holds them: sequences of code points in
which a surrogate may stand alone. What a text becomes is the caller's: a builder makes the values
and may refuse an object, a float or one of the constants `NaN`, `Infinity` and `-Infinity`.
-/

namespace Dsl41.Infra.Json

/-! ## Code points -/

/-- A code point: a Unicode scalar value or a surrogate. -/
inductive Code
  | scalar (c : Char)
  | surrogate (n : Fin 0x800)
deriving DecidableEq

def Code.ord : Code → Nat
  | scalar c => c.toNat
  | surrogate n => 0xD800 + n

theorem Code.ord_injective : Function.Injective Code.ord := by
  rintro (c | n) (d | m) h
  · exact congrArg scalar (Char.toNat_inj.mp h)
  · have hc := c.valid
    have hm := m.isLt
    simp only [ord, Char.toNat] at h
    rcases hc with hc | hc
    · simp only [UInt32.toNat] at h hc; omega
    · simp only [UInt32.toNat] at h hc; omega
  · have hd := d.valid
    have hn := n.isLt
    simp only [ord, Char.toNat] at h
    rcases hd with hd | hd
    · simp only [UInt32.toNat] at h hd; omega
    · simp only [UInt32.toNat] at h hd; omega
  · exact congrArg surrogate (Fin.ext (Nat.add_left_cancel h))

/-- Code points compare by number, and strings of them one by one. -/
instance : LinearOrder Code := LinearOrder.lift' Code.ord Code.ord_injective

def Code.ofNat (n : Nat) : Code :=
  if h : 0xD800 ≤ n ∧ n < 0xE000 then .surrogate ⟨n - 0xD800, by omega⟩
  else .scalar (Char.ofNat n)

abbrev Str := List Code

def ofChars (cs : List Char) : Str := cs.map .scalar

@[simp] theorem ofChars_append (a b : List Char) : ofChars (a ++ b) = ofChars a ++ ofChars b :=
  List.map_append

@[simp] theorem ofChars_cons (c : Char) (cs : List Char) :
    ofChars (c :: cs) = .scalar c :: ofChars cs := rfl

@[simp] theorem ofChars_nil : ofChars [] = [] := rfl

/-! ## Strings -/

inductive ReadError (ε : Type)
  | notJson
  | hook (e : ε)
deriving DecidableEq

variable {ε α : Type}

def raises (x : Except ε α) : Except (ReadError ε) α := x.mapError .hook

def hexValue : Code → Option Nat
  | .scalar c =>
    if c.isDigit then some (c.toNat - '0'.toNat)
    else if 'a' ≤ c ∧ c ≤ 'f' then some (c.toNat - 'a'.toNat + 10)
    else if 'A' ≤ c ∧ c ≤ 'F' then some (c.toNat - 'A'.toNat + 10)
    else none
  | .surrogate _ => none

def hexQuad (a b c d : Code) : Option Nat := do
  return (← hexValue a) * 4096 + (← hexValue b) * 256 + (← hexValue c) * 16 + (← hexValue d)

/-- The escapes of one character. -/
def shortEscapes : List (Char × Char) :=
  [('"', '"'), ('\\', '\\'), ('/', '/'), ('b', '\x08'), ('f', '\x0c'), ('n', '\n'), ('r', '\r'),
    ('t', '\t')]

/-- The escape `\uXXXX` after its `\u`; two that make a surrogate pair are read together. -/
def scanUnicode : Str → Option (Code × Str)
  | a :: b :: c :: d :: rest =>
    match hexQuad a b c d, rest with
    | none, _ => none
    | some high, .scalar '\\' :: .scalar 'u' :: a' :: b' :: c' :: d' :: rest' =>
      match hexQuad a' b' c' d' with
      | none => some (.ofNat high, rest)
      | some low =>
        if 0xD800 ≤ high ∧ high < 0xDC00 ∧ 0xDC00 ≤ low ∧ low < 0xE000 then
          some (.ofNat (0x10000 + (high - 0xD800) * 0x400 + (low - 0xDC00)), rest')
        else some (.ofNat high, rest)
    | some high, rest => some (.ofNat high, rest)
  | _ => none

/-- One code point of a string, escaped or not. -/
def scanCode : Str → Option (Code × Str)
  | .scalar '\\' :: .scalar 'u' :: rest => scanUnicode rest
  | .scalar '\\' :: .scalar e :: rest => (shortEscapes.lookup e).map fun c => (.scalar c, rest)
  | .scalar '\\' :: _ => none
  | .scalar c :: rest => if c.toNat < 0x20 then none else some (.scalar c, rest)
  | c :: rest => some (c, rest)
  | [] => none

/-- A string after its opening quote; every turn of the fuel reads one code point. -/
def scanString : Nat → Str → Except (ReadError ε) (Str × Str)
  | _, .scalar '"' :: rest => .ok ([], rest)
  | 0, _ => .error .notJson
  | n + 1, text =>
    match scanCode text with
    | none => .error .notJson
    | some (c, rest) => (scanString n rest).map fun (s, rest) => (c :: s, rest)

/-! ## Numbers -/

def isDigit : Code → Bool
  | .scalar c => c.isDigit
  | .surrogate _ => false

def Code.char? : Code → Option Char
  | .scalar c => some c
  | .surrogate _ => none

def natOfDigits (digits : Str) : Nat := Nat.ofDigitChars 10 (digits.filterMap Code.char?) 0

/-- What makes a number a float: a fraction, then an exponent. -/
def scanFraction : Str → Str × Str
  | .scalar '.' :: rest =>
    match rest.takeWhile isDigit with
    | [] => ([], .scalar '.' :: rest)
    | digits => (.scalar '.' :: digits, rest.dropWhile isDigit)
  | rest => ([], rest)

def scanSign : Str → Str × Str
  | .scalar '-' :: rest => ([.scalar '-'], rest)
  | .scalar '+' :: rest => ([.scalar '+'], rest)
  | rest => ([], rest)

def scanExponent : Str → Str × Str
  | .scalar e :: rest =>
    if e = 'e' ∨ e = 'E' then
      let (sign, rest') := scanSign rest
      match rest'.takeWhile isDigit with
      | [] => ([], .scalar e :: rest)
      | digits => (.scalar e :: (sign ++ digits), rest'.dropWhile isDigit)
    else ([], .scalar e :: rest)
  | rest => ([], rest)

/-- The digits of an integer: a single zero, or a number that does not start with one. -/
def scanDigits : Str → Option (Str × Str)
  | .scalar '0' :: rest => some ([.scalar '0'], rest)
  | text =>
    match text.takeWhile isDigit with
    | [] => none
    | digits => some (digits, text.dropWhile isDigit)

/-- How a text becomes a value, with what the caller refuses. -/
structure Builder (ε α : Type) where
  null : α
  bool : Bool → α
  int : Int → α
  str : Str → α
  list : List α → α
  object : List (Str × α) → Except ε α
  float : Str → Except ε α
  constant : Str → Except ε α

variable (b : Builder ε α)

def readDigits (negative : Bool) (text : Str) : Except (ReadError ε) (α × Str) :=
  match scanDigits text with
  | none => .error .notJson
  | some (digits, rest) =>
    let (fraction, rest) := scanFraction rest
    let (exponent, rest) := scanExponent rest
    if fraction = [] ∧ exponent = [] then
      .ok (b.int (if negative then -(natOfDigits digits) else natOfDigits digits), rest)
    else
      (raises (b.float ((if negative then [.scalar '-'] else []) ++ digits ++ fraction ++ exponent))).map
        fun v => (v, rest)

/-! ## Values -/

def isBlank : Code → Bool
  | .scalar c => c = ' ' ∨ c = '\t' ∨ c = '\n' ∨ c = '\r'
  | .surrogate _ => false

def skipBlanks (text : Str) : Str := text.dropWhile isBlank

/-- The literal names; the last three are the constants that are no JSON. -/
def literals : List (List Char × Except ε α) :=
  [("null".toList, .ok b.null), ("true".toList, .ok (b.bool true)),
    ("false".toList, .ok (b.bool false)), ("NaN".toList, b.constant (ofChars "NaN".toList)),
    ("Infinity".toList, b.constant (ofChars "Infinity".toList)),
    ("-Infinity".toList, b.constant (ofChars "-Infinity".toList))]

/-- A value that is no string, list or object. -/
def readScalar (text : Str) : Except (ReadError ε) (α × Str) :=
  match (literals b).find? fun l => (ofChars l.1).isPrefixOf text with
  | some (name, value) => (raises value).map fun v => (v, text.drop name.length)
  | none =>
    match text with
    | .scalar '-' :: rest => readDigits b true rest
    | text => readDigits b false text

mutual

/-- One value at the head of a text, and what follows it. -/
def readValue : Nat → Str → Except (ReadError ε) (α × Str)
  | 0, _ => .error .notJson
  | n + 1, text =>
    match text with
    | .scalar '"' :: rest => (scanString n rest).map fun (s, rest) => (b.str s, rest)
    | .scalar '[' :: rest =>
      match skipBlanks rest with
      | .scalar ']' :: rest => .ok (b.list [], rest)
      | rest => (readItems n rest).map fun (vs, rest) => (b.list vs, rest)
    | .scalar '\x7b' :: rest => do
      let (pairs, rest) ←
        match skipBlanks rest with
        | .scalar '\x7d' :: rest => .ok ([], rest)
        | rest => readMembers n rest
      let v ← raises (b.object pairs)
      .ok (v, rest)
    | text => readScalar b text

/-- The items of a list up to its bracket. -/
def readItems : Nat → Str → Except (ReadError ε) (List α × Str)
  | 0, _ => .error .notJson
  | n + 1, text => do
    let (v, rest) ← readValue n text
    match skipBlanks rest with
    | .scalar ']' :: rest => .ok ([v], rest)
    | .scalar ',' :: rest =>
      let (vs, rest) ← readItems n (skipBlanks rest)
      .ok (v :: vs, rest)
    | _ => .error .notJson

/-- The members of an object up to its brace. -/
def readMembers : Nat → Str → Except (ReadError ε) (List (Str × α) × Str)
  | 0, _ => .error .notJson
  | n + 1, text =>
    match text with
    | .scalar '"' :: rest => do
      let (key, rest) ← scanString n rest
      match skipBlanks rest with
      | .scalar ':' :: rest =>
        let (v, rest) ← readValue n (skipBlanks rest)
        match skipBlanks rest with
        | .scalar '\x7d' :: rest => .ok ([(key, v)], rest)
        | .scalar ',' :: rest =>
          let (ps, rest) ← readMembers n (skipBlanks rest)
          .ok ((key, v) :: ps, rest)
        | _ => .error .notJson
      | _ => .error .notJson
    | _ => .error .notJson

end

/-- `json.loads`: the whole text is one value, without a byte order mark. -/
def loads (text : Str) : Except (ReadError ε) α :=
  if text.head? = some (.scalar '\ufeff') then .error .notJson
  else do
    let (v, rest) ← readValue b text.length (skipBlanks text)
    if skipBlanks rest = [] then .ok v else .error .notJson

end Dsl41.Infra.Json
