import Dsl41.Canon.RoundTrip
import Dsl41.Infra.Dict
import Dsl41.Runner.Record

/-!
# Reading payloads

What the engine's language does with a decoded value: items of a mapping, truth, equality, and
the conversions `str`, `int` and `dict`. The text of a value that is no string, the number a text
stands for, the instants and the digest are the standard library's.
-/

namespace Dsl41.Runner

open Infra Infra.Json Canon

def name (s : String) : Str := ofChars s.toList

@[simp] theorem name_inj {a b : String} : name a = name b ↔ a = b := by
  rw [name, name, ofChars, ofChars, List.map_inj_right fun _ _ h => by cases h; rfl]
  exact String.toList_inj

/-! ## The standard library -/

/-- What the readers and writers below call of the standard library, with what they rely on: an
instant's text reads back as the instant, and the texts written are of Unicode scalar values. -/
structure Library where
  Instant : Type
  fromisoformat : Str → Option Instant
  isoformat : Instant → Str
  /-- `none` where the conversion overflows. -/
  naiveUtc : Instant → Option Instant
  /-- Whether the first is after the second; `none` for a naive and an aware one. -/
  after : Instant → Instant → Option Bool
  same : Instant → Instant → Bool
  /-- `json.loads(base64.urlsafe_b64decode(text))`. -/
  runTag : Str → Option Value
  repr : Value → Str
  intOfText : Str → Option Int
  /-- An integer field of a validated model. -/
  intField : Value → Option Int
  sha256 : ByteArray → Str
  read_written : ∀ d, fromisoformat (isoformat d) = some d
  intField_int : ∀ i, intField (.int i) = some i
  scalar_isoformat : ∀ d, isScalarString (isoformat d) = true
  scalar_repr : ∀ v : Value, v.IsJson → isScalarString (repr v) = true
  scalar_sha256 : ∀ b, isScalarString (sha256 b) = true

/-! ## Mappings -/

/-- The items of a mapping. -/
def items : Value → List (Str × Value)
  | .mapping entries => entries
  | _ => []

/-- `body.get(key)`; a missing key reads as none. -/
def dictGet (body : Value) (key : Str) : Value := (Dict.getIn key (items body)).getD .none

/-- `body[key]`. -/
def item (body : Value) (key : Str) : Except Error Value :=
  match body with
  | .mapping entries =>
    match Dict.getIn key entries with
    | some v => .ok v
    | none => .error (.keyError (.inl key))
  | _ => .error .typeError

/-- `value.get(key)`, where the value may be no mapping. -/
def getOf (value : Value) (key : Str) : Except Error Value :=
  match value with
  | .mapping _ => .ok (dictGet value key)
  | _ => .error .attributeError

/-- `{**body, key: value}`. -/
def withItem (body : Value) (key : Str) (value : Value) : Value :=
  .mapping (Dict.setIn key value (items body))

/-! ## Truth, equality and conversions -/

def truthy : Value → Bool
  | .none => false
  | .bool b => b
  | .int i => i ≠ 0
  | .float _ text => text ≠ name "0.0" ∧ text ≠ name "-0.0"
  | .str s => s ≠ []
  | .mapping entries => !entries.isEmpty
  | .list items => !items.isEmpty
  | .datetime _ | .other _ => true

/-- `value or {}`. -/
def orEmpty (value : Value) : Value := if truthy value then value else .mapping []

/-- `value or ()`. -/
def orNothing (value : Value) : Value := if truthy value then value else .list []

/-- A value as the number it equals. -/
def number? : Value → Option Int
  | .int i => some i
  | .bool b => some (if b then 1 else 0)
  | _ => none

mutual

/-- Equality of two values whose mappings are in key order. -/
def equalSorted : Value → Value → Bool
  | .none, .none => true
  | .str s, .str s' => s = s'
  | .datetime d, .datetime d' => d = d'
  | .float _ text, .float _ text' => text = text'
  | .float _ text, v => (number? v).any fun i => text = ofChars (intText i ++ ['.', '0'])
  | v, .float _ text => (number? v).any fun i => text = ofChars (intText i ++ ['.', '0'])
  | .mapping es, .mapping es' => equalEntries es es'
  | .list vs, .list vs' => equalItems vs vs'
  | .other t, .other t' => t = t'
  | v, v' => (number? v).isSome && number? v = number? v'

def equalEntries : List (Str × Value) → List (Str × Value) → Bool
  | [], [] => true
  | (key, v) :: es, (key', v') :: es' => key = key' && equalSorted v v' && equalEntries es es'
  | _, _ => false

def equalItems : List Value → List Value → Bool
  | [], [] => true
  | v :: vs, v' :: vs' => equalSorted v v' && equalItems vs vs'
  | _, _ => false

end

/-- `value == other`: the entries of a mapping in any order. -/
def equal (value other : Value) : Bool := equalSorted value.sorted other.sorted

variable (L : Library)

def pyStr : Value → Str
  | .str s => s
  | v => L.repr v

def pyInt : Value → Except Error Int
  | .int i => .ok i
  | .bool b => .ok (if b then 1 else 0)
  | .str s =>
    match L.intOfText s with
    | some i => .ok i
    | none => .error (.valueError [])
  | _ => .error .typeError

/-- An integer that is no boolean. -/
def wireInt? : Value → Option Int
  | .int i => some i
  | _ => none

/-- The values of a list; anything else is not iterated here. -/
def elements : Value → Except Error (List Value)
  | .list vs => .ok vs
  | .mapping entries => .ok (entries.map fun e => .str e.1)
  | .str s => .ok (s.map fun c => .str [c])
  | _ => .error .typeError

/-- `dict(value)` of one step, entry or body. -/
def pyDict : Value → Except Error Value
  | .mapping entries => .ok (.mapping entries)
  | _ => .error .typeError

/-- The key and the value of an item of `dict(value)`, where the value lists pairs. -/
def pair : Value → Except Error (Value × Value)
  | .list [k, v] =>
    match k with
    | .list _ | .mapping _ => .error .typeError
    | _ => .ok (k, v)
  | .str [c, c'] => .ok (.str [c], .str [c'])
  | .mapping [(k, _), (k', _)] => .ok (.str k, .str k')
  | .list _ | .str _ | .mapping _ => .error (.valueError [])
  | _ => .error .typeError

/-- A pair set among the pairs of a dictionary. -/
def setPair (p : Value × Value) : List (Value × Value) → List (Value × Value)
  | [] => [p]
  | e :: l => if equal e.1 p.1 then (e.1, p.2) :: l else e :: setPair p l

/-- `dict(value).items()`. -/
def dictItems : Value → Except Error (List (Value × Value))
  | .mapping entries => .ok (entries.map fun e => (.str e.1, e.2))
  | .list vs => do
    let pairs ← vs.mapM pair
    return pairs.foldl (fun held p => setPair p held) []
  | .str [] => .ok []
  | .str _ => .error (.valueError [])
  | _ => .error .typeError

/-- `value in names`, for a set of names. -/
def oneOf (value : Value) (names : List Str) : Except Error Bool :=
  match value with
  | .str s => .ok (s ∈ names)
  | .list _ | .mapping _ => .error .typeError
  | _ => .ok false

end Dsl41.Runner
