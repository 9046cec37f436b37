import Mathlib
import Dsl41.Placeholders.Tokens

/-!
# The properties resolver

The entries of all layers are visited pass after pass. A visit replaces the names resolved so far
in the entry's key and value; an entry without tokens defines its name, any other waits for the
next pass. A pass in which no entry is done is the last one.
-/

namespace Dsl41.Placeholders

open Dsl41.Infra

/-- `_Entry`: a property line; key and value may carry references. -/
structure Entry where
  key : Text
  value : Text
  file : Text := []
  line : Nat := 0
deriving DecidableEq

/-- `_Entry.where`. -/
def Entry.at_ (e : Entry) : Text × Nat := (e.file, e.line)

inductive Finding where
  | notIdentifier (at_ : Text × Nat) (key : Text)
  | collision (at_ : Text × Nat) (key : Text) (first : Option (Text × Nat))
  | unresolvable (at_ : Text × Nat) (names : List Text)

/-- `PlaceholderError`, with its findings in the order they are made. -/
structure PlaceholderError where
  findings : List Finding

/-- What is resolved so far. -/
structure Resolution where
  resolved : Dict Text Text := ∅
  provenance : Dict Text Entry := ∅
  findings : List Finding := []

/-- A pass over the pending entries: what it resolves and what it leaves. -/
structure Pass extends Resolution where
  still : List Entry := []
  progressed : Bool := false

/-- An entry after one replacement of the names resolved so far. -/
def Entry.substitute (e : Entry) (resolved : Dict Text Text) : Entry :=
  { e with key := substituteKnown e.key resolved, value := substituteKnown e.value resolved }

/-- The names an entry refers to. -/
def Entry.refs (e : Entry) : List Text := Placeholders.refs e.key ++ Placeholders.refs e.value

/-- The result: the map, or every finding. -/
def Resolution.finish (res : Resolution) : Except PlaceholderError (Dict Text Text) :=
  if res.findings = [] then .ok res.resolved else .error ⟨res.findings⟩

end Dsl41.Placeholders
