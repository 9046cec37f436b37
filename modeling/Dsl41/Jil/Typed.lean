import Dsl41.Jil.Syntax

/-!
# Values of the typed lane

What a value means once its statement is read: the name inside its quotes, the parts of a list.
-/

namespace Dsl41.Jil

/-- `unquote_jil_value`: exactly one wrapping pair of quotes comes off. -/
def unquoteJilValue (value : String) : String :=
  match strip value.toList with
  | '"' :: rest =>
    if rest.getLast? = some '"' ∧ '"' ∉ rest.dropLast then .ofList rest.dropLast else .ofList ('"' :: rest)
  | v => .ofList v

/-- `split(",")`, with each part stripped. -/
def commaParts (text : List Char) : List Line := (text.splitOn ',').map strip

end Dsl41.Jil
