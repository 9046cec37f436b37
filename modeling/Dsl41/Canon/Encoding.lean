import Dsl41.Infra.Json.Grammar
import Dsl41.Infra.Text
import Mathlib.Data.List.Sort

/-!
# Canonical serialization

The encoder that every digest is computed over, and the reading half. The encoder writes no
blanks, sorts the keys of every map by code point and escapes every control character; the
decoder refuses duplicate keys, floats, strings that are no sequence of Unicode scalar values and
an `artifact_format_version` that is not implemented.
-/

namespace Dsl41.Canon

open Infra Infra.Json

/-! ## Values -/

/-- A naive-UTC instant. -/
structure DateTime where
  year : Nat
  month : Nat
  day : Nat
  hour : Nat
  minute : Nat
  second : Nat
  microsecond : Nat
deriving DecidableEq

/-- What the encoder is handed. A float keeps its text, any other type its name. -/
inductive Value
  | none
  | bool (b : Bool)
  | int (i : Int)
  | float (finite : Bool) (text : Str)
  | str (s : Str)
  | datetime (d : DateTime)
  | mapping (entries : List (Str × Value))
  | list (items : List Value)
  | other (typeName : Str)

def ARTIFACT_FORMAT_VERSION : Int := 1

def versionKey : Str := ofChars "artifact_format_version".toList

inductive CanonError
  | float (path : Str) (finite : Bool) (text : Str)
  | notInGrammar (path typeName : Str)
  | notScalar (path : Str)
  | notUtf8
  | notJson
  | duplicateKey (key : Str)
  | floatLiteral (literal : Str)
  | constant (literal : Str)
  | decodedNotScalar
  | versionNotInteger (version : Value)
  | version (version : Int)

/-- The characters of a string that has no lone surrogate. -/
def isScalarString (s : Str) : Bool := s.all fun c => !(0xD800 ≤ c.ord && c.ord ≤ 0xDFFF)

/-! ## The encoder -/

/-- The short forms, by character code. -/
def shortForms : List (Nat × List Char) :=
  [(0x08, ['\\', 'b']), (0x09, ['\\', 't']), (0x0A, ['\\', 'n']), (0x0C, ['\\', 'f']),
    (0x0D, ['\\', 'r']), (0x22, ['\\', '"']), (0x5C, ['\\', '\\'])]

/-- The code in lower-case hexadecimal, in four digits at least. -/
def hex4 (code : Nat) : List Char := (Nat.toDigits 16 code).leftpad 4 '0'

def escape (c : Char) : List Char :=
  match shortForms.lookup c.toNat with
  | some short => short
  | none =>
    if c.toNat ≤ 0x1F ∨ (0x7F ≤ c.toNat ∧ c.toNat ≤ 0x9F) then '\\' :: 'u' :: hex4 c.toNat
    else [c]

def encodeString (value path : Str) : Except CanonError (List Char) :=
  if isScalarString value then
    .ok ('"' :: ((value.filterMap Code.char?).flatMap escape ++ ['"']))
  else .error (.notScalar path)

def pad (width n : Nat) : List Char := (natText n).leftpad width '0'

/-- `isoformat(timespec="microseconds")`. -/
def DateTime.isoformat (d : DateTime) : List Char :=
  pad 4 d.year ++ '-' :: pad 2 d.month ++ '-' :: pad 2 d.day ++ 'T' :: pad 2 d.hour ++
    ':' :: pad 2 d.minute ++ ':' :: pad 2 d.second ++ '.' :: pad 6 d.microsecond

def keyPath (path key : Str) : Str := path ++ .scalar '.' :: key

def itemPath (path : Str) (position : Nat) : Str :=
  path ++ .scalar '[' :: (ofChars (natText position) ++ [.scalar ']'])

/-- Entries in the order of their keys. -/
def sortKeys {υ : Type} (entries : List (Str × υ)) : List (Str × υ) :=
  entries.insertionSort fun e e' => e.1 ≤ e'.1

mutual

/-- The text of one value; `path` names the site in a refusal. -/
def write (path : Str) : Value → Except CanonError (List Char)
  | .none => .ok "null".toList
  | .bool b => .ok (if b then "true".toList else "false".toList)
  | .int i => .ok (intText i)
  | .float finite text => .error (.float path finite text)
  | .str s => encodeString s path
  | .datetime d => encodeString (ofChars d.isoformat) path
  | .mapping entries => do
    let members ← (sortKeys (writeObject path entries)).mapM Prod.snd
    return '\x7b' :: (join [','] members ++ ['\x7d'])
  | .list items => do
    let texts ← writeArray path 0 items
    return '[' :: (join [','] texts ++ [']'])
  | .other typeName => .error (.notInGrammar path typeName)

/-- The members of a map by their keys. They are sorted before the first refusal is raised. -/
def writeObject (path : Str) : List (Str × Value) → List (Str × Except CanonError (List Char))
  | [] => []
  | (key, value) :: entries =>
    (key, do
      let name ← encodeString key (keyPath path key)
      let text ← write (keyPath path key) value
      return name ++ ':' :: text) :: writeObject path entries

def writeArray (path : Str) : Nat → List Value → Except CanonError (List (List Char))
  | _, [] => .ok []
  | position, item :: items => do
    let text ← write (itemPath path position) item
    let texts ← writeArray path (position + 1) items
    return text :: texts

end

def canonicalBytes (value : Value) : Except CanonError ByteArray :=
  (write (ofChars ['$']) value).map fun text => (String.ofList text).toByteArray

/-! ## The decoder -/

/-- The key of a later pair that an earlier pair has. -/
def duplicateKey? {υ : Type} : List Str → List (Str × υ) → Option Str
  | _, [] => none
  | seen, (key, _) :: pairs =>
    if key ∈ seen then some key else duplicateKey? (key :: seen) pairs

def noDuplicateKeys (pairs : List (Str × Value)) : Except CanonError Value :=
  match duplicateKey? [] pairs with
  | some key => .error (.duplicateKey key)
  | none => .ok (.mapping pairs)

/-- The decoder's hooks. -/
def builder : Builder CanonError Value where
  null := .none
  bool := .bool
  int := .int
  str := .str
  list := .list
  object := noDuplicateKeys
  float literal := .error (.floatLiteral literal)
  constant literal := .error (.constant literal)

mutual

def isScalarJson : Value → Bool
  | .str s => isScalarString s
  | .mapping entries => isScalarObject entries
  | .list items => isScalarArray items
  | _ => true

def isScalarObject : List (Str × Value) → Bool
  | [] => true
  | (key, item) :: entries => isScalarString key && isScalarJson item && isScalarObject entries

def isScalarArray : List Value → Bool
  | [] => true
  | item :: items => isScalarJson item && isScalarArray items

end

def checkArtifactVersion : Value → Except CanonError Unit
  | .mapping entries =>
    match entries.find? fun e => e.1 = versionKey with
    | none => .ok ()
    | some (_, .int version) =>
      if version = ARTIFACT_FORMAT_VERSION then .ok () else .error (.version version)
    | some (_, version) => .error (.versionNotInteger version)
  | _ => .ok ()

def decode (data : ByteArray ⊕ Str) : Except CanonError Value := do
  let text ←
    match data with
    | .inl bytes =>
      match bytes.utf8Decode? with
      | some chars => .ok (ofChars chars.toList)
      | none => .error .notUtf8
    | .inr text => .ok text
  let obj ←
    match loads builder text with
    | .ok obj => .ok obj
    | .error .notJson => .error .notJson
    | .error (.hook e) => .error e
  if !isScalarJson obj then .error .decodedNotScalar
  checkArtifactVersion obj
  return obj

end Dsl41.Canon
