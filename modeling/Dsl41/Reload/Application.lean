import Dsl41.Reload.Boxes

/-!
# The application of a plan

`planApplication` checks a stored plan against the catalog that is live by then, and says what
applying it does.
-/

namespace Dsl41.Reload

open Infra

/-! ## A stored plan -/

section Model

variable (V : Type)

/-- `plan.json`, as the application reads it: of a change, the name. -/
structure PlanDoc where
  token : String
  live_rev : Int
  live_digest : String
  added : List String
  removed : List String
  changed : List String
  unchanged : List String
  settings : Dict String V

/-- What the application reads of a job's row. -/
structure JobRuntime where
  status : String
  run_number : Nat
  on_hold : Bool := false
  on_ice : Bool := false
  on_noexec : Bool := false

/-- The oracle: its catalog, its rows and the rows of removed jobs. -/
structure Oracle where
  catalog : CatalogIR V
  job : Dict String JobRuntime
  tombstones : Dict String JobRuntime

variable {V}

end Model

/-! ## The plans that are accepted -/

variable {V H : Type} {live candidate : CatalogIR V} {name : String}

/-- The plan's names are those of the two catalogs, each once; the added and removed ones are in order. -/
structure Describes (plan : PlanDoc V) (live candidate : CatalogIR V) : Prop where
  added_sorted : plan.added.Pairwise (· < ·)
  added : ∀ name, name ∈ plan.added ↔ Gained live candidate name
  removed_sorted : plan.removed.Pairwise (· < ·)
  removed : ∀ name, name ∈ plan.removed ↔ Lost live candidate name
  kept_once : (plan.changed ++ plan.unchanged).Nodup
  kept : ∀ name, name ∈ plan.changed ∨ name ∈ plan.unchanged ↔ Kept live candidate name

variable [DecidableEq V] [DecidableEq H] {digest : Payload V → H} {live_settings candidate_settings : Dict String V}

end Dsl41.Reload
