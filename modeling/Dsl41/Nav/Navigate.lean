import Dsl41.Nav.Adjacency

/-!
# Navigation

`validate_query` and `navigate`: the neighbours, the ancestors and the descendants of a job, one
shortest path, and the relations of the box tree. A loop takes fuel; a query has an answer when every
fuel from some amount on gives it.
-/

namespace Dsl41.Nav

open Infra Derive

inductive Verb where
  | fanins | fanouts | box | children | siblings | ancestors | descendants | path | show_
deriving DecidableEq

/-- `ALIASES` and `VERBS`. -/
def VERBS : List (String × Verb) :=
  [("upstream", .fanins), ("downstream", .fanouts), ("fanins", .fanins), ("fanouts", .fanouts), ("box", .box),
    ("children", .children), ("siblings", .siblings), ("ancestors", .ancestors), ("descendants", .descendants),
    ("path", .path), ("show", .show_)]

/-- `DEPENDENCY_VERBS`. -/
def Verb.dependency : Verb → Bool
  | fanins | fanouts | ancestors | descendants | path => true
  | _ => false

/-- What a query raises, with the facts its message names. -/
inductive NavError where
  | unknownVerb (verb : String)
  | valueError (text : String)
  | jobNotFound (job : String)
  | noPath (job target : String)
  | keyError (key : String)
  | dsl (e : Conditions.DslError)
deriving DecidableEq

structure Match where
  name : String
  atom : String := ""
deriving DecidableEq

/-- What `navigate` is called with. -/
structure Query where
  verb : String
  job : String
  target : Option String := none
  depth : Option Int := none
  deep : Bool := false
  include_all : Bool := false

/-- `validate_query`. -/
def validateQuery (verb : String) (target : Option String) (depth : Option Int) (deep include_all explain : Bool) :
    Except NavError Verb := do
  match VERBS.lookup verb with
  | none => throw (.unknownVerb verb)
  | some verb =>
    if (verb = .path) ≠ target.isSome then
      throw (.valueError "path needs two job names; every other verb needs one")
    if depth.any fun d => d < 0 ∨ verb ∉ [.ancestors, .descendants] then
      throw (.valueError "--depth needs a nonnegative integer and ancestors or descendants")
    if deep ∧ verb ≠ .children then throw (.valueError "--deep needs children")
    if include_all ∧ !verb.dependency then throw (.valueError "--all needs a dependency verb")
    if explain ∧ verb = .show_ then throw (.valueError "--explain needs a relationship or path")
    return verb

/-- `_node`. -/
def nodeOf (adjacency : Adjacency) (name : String) : Option Node :=
  [false, true].findSome? fun external =>
    if (adjacency.get? (node name external)).isSome then some (node name external) else none

/-- `_matches`, of the nodes with their atoms. -/
def matchesOf (found : List (Node × String)) : List Match :=
  let atoms : Dict String (Finset String) :=
    found.foldl (fun d e => d.set e.1.name (insert e.2 ((d.get? e.1.name).getD ∅))) ∅
  (sortedList atoms.keys).map fun name => ⟨name, joined ((atoms.get? name).getD ∅)⟩

/-- `_walk`, up to its tree. -/
def walk (fuel : Nat) (adjacency : Adjacency) (start : Node) (depth : Option Nat) : Option (Tree Node String) :=
  breadthFirst (neighbors adjacency) depth start fuel

/-- The path query, with the tree of its start. -/
def pathTo (fuel : Nat) (adjacency : Adjacency) (found : Dict Node (Node × String)) (start : Node)
    (job target : String) : Option (Except NavError (List Match)) :=
  match nodeOf adjacency target with
  | none => some (.error (.jobNotFound target))
  | some stop =>
    (backtrack found start fuel stop []).map fun
      | none => .error (.noPath job target)
      | some way => .ok (⟨job, ""⟩ :: way.map fun e => ⟨e.1.name, e.2⟩)

/-- The verbs that read the adjacency. -/
def dependencies (fuel : Nat) (graph : DerivedGraph) (verb : Verb) (q : Query) :
    Option (Except NavError (List Match)) :=
  match adjacencyOf graph (verb = .fanins ∨ verb = .ancestors) q.include_all with
  | .error e => some (.error (.dsl e))
  | .ok adjacency =>
    match nodeOf adjacency q.job with
    | none => some (.error (.jobNotFound q.job))
    | some start =>
      if verb = .fanins ∨ verb = .fanouts then some (.ok (matchesOf (neighbors adjacency start)))
      else
        (walk fuel adjacency start (q.depth.map Int.toNat)).bind fun tree =>
          if verb = .path then pathTo fuel adjacency tree.found start q.job (q.target.getD "")
          else some (.ok (matchesOf (tree.found.entries.map fun e => (e.1, e.2.2))))

def boxName (box : String) : String := "box_name: " ++ box

/-- One member of a box. -/
def member (deep : Bool) (box : String) (s : Dict String Match × List String) (name : String) :
    Dict String Match × List String :=
  if (s.1.get? name).isSome then s else (s.1.set name ⟨name, boxName box⟩, if deep then s.2 ++ [name] else s.2)

/-- The turn of a box: its members. -/
def members (tree : BoxTree) (deep : Bool) (box : String) (found : Dict String Match) : Dict String Match × List String :=
  ((tree.children.get? box).getD []).foldl (member deep box) (found, [])

/-- The verbs that read the box tree. -/
def boxes (fuel : Nat) (graph : DerivedGraph) (verb : Verb) (q : Query) : Option (Except NavError (List Match)) :=
  if q.job ∉ graph.nodes then some (.error (.jobNotFound q.job))
  else
    let tree := graph.box_tree
    match verb, tree.parent.get? q.job with
    | .box, none => some (.ok [])
    | .box, some parent => some (.ok [⟨parent, boxName parent⟩])
    | .siblings, none => some (.ok [])
    | .siblings, some parent =>
      match tree.children.get? parent with
      | none => some (.error (.keyError parent))
      | some children => some (.ok (((sortedList children).filter (· ≠ q.job)).map fun name => ⟨name, boxName parent⟩))
    | .children, _ =>
      (drain (members tree q.deep) fuel ∅ [q.job]).map fun found =>
        .ok ((sortedList found.keys).filterMap found.get?)
    | _, _ => some (.error (.valueError "show needs the IR-F definition; use the DSL renderer"))

/-- `navigate`; none when the fuel does not last. -/
def navigate (fuel : Nat) (graph : DerivedGraph) (q : Query) : Option (Except NavError (List Match)) :=
  match validateQuery q.verb q.target q.depth q.deep q.include_all false with
  | .error e => some (.error e)
  | .ok verb => if verb.dependency then dependencies fuel graph verb q else boxes fuel graph verb q

/-- What the query gives once there is fuel enough. -/
def Answers (graph : DerivedGraph) (q : Query) (answer : Except NavError (List Match)) : Prop :=
  ∃ bound, ∀ fuel ≥ bound, navigate fuel graph q = some answer

end Dsl41.Nav
