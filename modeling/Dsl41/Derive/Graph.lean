import Dsl41.Conditions.Render
import Dsl41.Derive.Chains

/-!
# The derived graph

What the readers of a derived graph ask of it: its jobs, its edges with the condition node each came
from, the jobs named in bare `n()` form, and the box tree.
-/

namespace Dsl41.Derive

open Infra

/-- A derived edge with its producer's display name and the condition node, whose tokens its source
text needs. -/
structure SourceEdge extends DerivedEdge where
  src : String
  node : Conditions.Cond
  node_atom : node.erase = .atom atom

/-- `BoxTree`. -/
structure BoxTree where
  roots : List String := []
  children : Dict String (List String) := ∅
  parent : Dict String String := ∅

/-- `DerivedGraph`, without what no reader here asks for. -/
structure DerivedGraph where
  nodes : List String := []
  edges : List SourceEdge := []
  bare_notrunning : Dict String (List String) := ∅
  box_tree : BoxTree := {}

/-- An atom that compares no global has a source text. -/
theorem condToSource_atom {node : Conditions.Cond} {atom : Oracle.Atom} (h : node.erase = .atom atom)
    (hjob : ∀ g, atom ≠ .global g) : ∃ text, Conditions.condToSource node = .ok text := by
  cases node with
  | status => exact ⟨_, rfl⟩
  | exitcode => exact ⟨_, rfl⟩
  | global =>
    cases h
    exact absurd rfl (hjob _)
  | and => cases h
  | or => cases h
  | paren => cases h

end Dsl41.Derive
