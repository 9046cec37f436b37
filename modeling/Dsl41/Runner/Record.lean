import Mathlib
import Dsl41.Canon.Encoding

/-!
# Journal records

A record as it is handed to a store, the row a store keeps of it, and the two readings between
them. What a record is refused for is decided here, before a store sees it.
-/

namespace Dsl41.Runner

open Infra Infra.Json Canon

instance lawfulBEqStr : LawfulBEq Str := inferInstance

/-- An instant as it is handed in: naive, or aware with what its conversion to UTC gives. -/
inductive Instant
  | naive (at_utc : DateTime)
  | aware (utc : Option DateTime)

/-- Whether the instant has a reading in UTC. -/
def Instant.converts : Instant → Bool
  | .aware none => false
  | _ => true

/-- One journal record. -/
structure Record where
  at_utc : Instant
  kind : Str
  actor : Option Str
  request_id : Option Str
  payload : Value

/-- The oracle state at journal position `seq`. -/
structure Snapshot where
  seq : Int
  state_version : Int
  data : ByteArray
deriving DecidableEq

/-! ## Errors -/

/-- The record is refused as one that cannot be canonicalized. -/
inductive Refusal
  | encoder (e : CanonError)
  | text (what : List Char) (value : Str)
  | emptyKind
  | notMapping (payload : Value)

inductive StoreError
  | notObject (payload : Value)
  | requestTaken (request_id : Str)
  | snapshotTaken (seq : Int)
  | snapshotAbove (seq last : Int)
  | constraint (table : List Char)

/-- What is wrong with the data of a dispatch. -/
inductive Fault
  | keyError (key : Str)
  | typeError
  | valueError (text : List Char)

/-- What the engine refuses a record, or a store, for. -/
inductive EngineError
  | dispatchData (cause : Fault)
  | dispatchSequence
  | replacementSequence
  | replacementEnv
  | kind (kind : Str)
  | event (kind event : Value)
  | headPruned
  | snapshot (seq : Int)

inductive Error
  | canonError (e : Refusal)
  | storeError (e : StoreError)
  | engineError (e : EngineError)
  | backfillRefused
  | keyError (key : Str ⊕ Int)
  | valueError (text : List Char)
  | typeError
  | attributeError
  | overflowError
  | unicodeEncodeError
  | integrityError
  | operationalError

/-- The class a caller catches an error by. -/
inductive ErrorClass
  | canonError | storeError | engineError | backfillRefused | keyError | valueError | typeError
  | attributeError | overflowError | unicodeEncodeError | integrityError | operationalError
deriving DecidableEq

def Error.cls : Error → ErrorClass
  | canonError _ => .canonError
  | storeError _ => .storeError
  | engineError _ => .engineError
  | backfillRefused => .backfillRefused
  | keyError _ => .keyError
  | valueError _ => .valueError
  | typeError => .typeError
  | attributeError => .attributeError
  | overflowError => .overflowError
  | unicodeEncodeError => .unicodeEncodeError
  | integrityError => .integrityError
  | operationalError => .operationalError

def canon {α : Type} (x : Except CanonError α) : Except Error α :=
  x.mapError fun e => .canonError (.encoder e)

/-! ## Payloads -/

def decodePayload (data : ByteArray) : Except Error Value := do
  let payload ← canon (decode (.inl data))
  match payload with
  | .mapping _ => return payload
  | _ => throw (.storeError (.notObject payload))

/-- The canonical bytes of a payload that can be read back. -/
def encodePayload (payload : Value) : Except Error ByteArray := do
  match payload with
  | .mapping _ => pure ()
  | _ => throw (.canonError (.notMapping payload))
  canon (checkArtifactVersion payload)
  let data ← canon (canonicalBytes payload)
  let _ ← decodePayload data
  return data

/-! ## Instants -/

def naiveUtc : Instant → Except Error DateTime
  | .naive d => .ok d
  | .aware (some d) => .ok d
  | .aware none => .error .overflowError

/-- An instant as the fixed-width text the tables hold; text order is time order. -/
def stamp (at_utc : Instant) : Except Error (List Char) := (naiveUtc at_utc).map DateTime.isoformat

/-- A field of digits. -/
def field (digits : List Char) : Option Nat :=
  if digits.all Char.isDigit then some (Nat.ofDigitChars 10 digits 0) else none

/-- `fromisoformat` on the fixed-width text, which is all the tables hold. -/
def unstamp (text : List Char) : Except Error DateTime :=
  match text with
  | [y, y', y'', y''', '-', m, m', '-', d, d', 'T', h, h', ':', n, n', ':', s, s', '.',
      u, u', u'', v, v', v''] =>
    match field [y, y', y'', y'''], field [m, m'], field [d, d'], field [h, h'], field [n, n'],
        field [s, s'], field [u, u', u'', v, v', v''] with
    | some year, some month, some day, some hour, some minute, some second, some microsecond =>
      .ok { year, month, day, hour, minute, second, microsecond }
    | _, _, _, _, _, _, _ => .error (.valueError text)
  | _ => .error (.valueError text)

/-! ## Rows -/

/-- A record after the checks that may refuse it. -/
structure Encoded where
  at_utc : List Char
  kind : Str
  actor : Option Str
  request_id : Option Str
  payload : ByteArray
deriving DecidableEq

/-- A header field is a string of Unicode scalar values. -/
def text (value : Str) (what : List Char) : Except Error Unit :=
  if isScalarString value then .ok () else .error (.canonError (.text what value))

def optionalText (value : Option Str) (what : List Char) : Except Error Unit :=
  match value with
  | none => .ok ()
  | some value => text value what

def nonEmpty (kind : Str) : Except Error Unit :=
  if kind = [] then .error (.canonError .emptyKind) else .ok ()

def encode (record : Record) : Except Error Encoded := do
  text record.kind "kind".toList
  nonEmpty record.kind
  optionalText record.actor "actor".toList
  optionalText record.request_id "request_id".toList
  let at_utc ← stamp record.at_utc
  let payload ← encodePayload record.payload
  return { at_utc, kind := record.kind, actor := record.actor, request_id := record.request_id,
           payload }

/-- A row read back. -/
def record (row : Encoded) : Except Error Record := do
  let at_utc ← unstamp row.at_utc
  let payload ← decodePayload row.payload
  return { at_utc := .naive at_utc, kind := row.kind, actor := row.actor,
           request_id := row.request_id, payload }

/-- The header texts of a row are strings of Unicode scalar values. -/
def Encoded.Scalar (row : Encoded) : Prop :=
  isScalarString row.kind = true ∧ (∀ s ∈ row.actor, isScalarString s = true) ∧
    ∀ s ∈ row.request_id, isScalarString s = true

end Dsl41.Runner
