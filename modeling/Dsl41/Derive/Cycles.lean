import Mathlib.Data.List.Lex
import Dsl41.Infra.Dict
import Dsl41.Infra.Digraph
import Dsl41.Infra.Result

/-!
# Cycles

The strongly connected components of the derived graph, by a depth-first search with an explicit
stack of frames. A set is a finite set of nodes, and `sorted` is the only reading of its elements in
an order.
-/

namespace Dsl41.Derive

open Infra

variable {ν : Type} [LinearOrder ν]

/-- What a lookup and a `pop` raise. -/
inductive Fault
  | keyError
  | indexError
deriving DecidableEq

/-- `d[key]`. -/
def item {υ : Type} (d : Dict ν υ) (key : ν) : Except Fault υ :=
  match d.get? key with
  | some v => .ok v
  | none => .error .keyError

/-- One entry of the stack of work. -/
structure Frame (ν : Type) where
  node : ν
  children : List ν
  child_i : Nat

/-- The variables of the search; both stacks have their top first. -/
structure Search (ν : Type) where
  index : Dict ν Nat := ∅
  low : Dict ν Nat := ∅
  on_stack : Finset ν := ∅
  stack : List ν := []
  counter : Nat := 0
  result : List (List ν) := []
  work : List (Frame ν) := []

/-- `stack.pop()` until the node is popped: what was popped, and the rest. -/
def popUntil (node : ν) : List ν → Except Fault (List ν × List ν)
  | [] => .error .indexError
  | member :: stack =>
    if member = node then .ok ([member], stack)
    else do
      let (scc, rest) ← popUntil node stack
      return (member :: scc, rest)

namespace Search

variable (succs : Dict ν (Finset ν))

/-- A node is met for the first time. -/
def meet (node : ν) (s : Search ν) : Except Fault (Search ν) := do
  let children ← item succs node
  return { s with
    index := s.index.set node s.counter
    low := s.low.set node s.counter
    counter := s.counter + 1
    stack := node :: s.stack
    on_stack := insert node s.on_stack
    work := { node, children := sorted children, child_i := 0 } :: s.work }

/-- The next child of the frame in hand. -/
def look (node child : ν) (s : Search ν) : Except Fault (Search ν) :=
  match s.index.get? child with
  | none => s.meet succs child
  | some found =>
    if child ∈ s.on_stack then do
      let low ← item s.low node
      return { s with low := s.low.set node (min low found) }
    else return s

/-- The parent's low link takes the child's. -/
def tell (node : ν) (s : Search ν) : Except Fault (Search ν) :=
  match s.work with
  | [] => return s
  | parent :: _ => do
    let low ← item s.low parent.node
    return { s with low := s.low.set parent.node (min low (← item s.low node)) }

/-- A node with no child left: the root of a component pops it. -/
def close (node : ν) (s : Search ν) : Except Fault (Search ν) := do
  if (← item s.low node) = (← item s.index node) then
    let (scc, stack) ← popUntil node s.stack
    let s := { s with stack, on_stack := scc.foldl Finset.erase s.on_stack }
    if 1 < scc.length ∨ node ∈ (← item succs node) then
      return { s with result := s.result ++ [sortedList scc] }
    else return s
  else return s

/-- One turn of `while work`, with the frame in hand popped. -/
def turn (frame : Frame ν) (s : Search ν) : Except Fault (Search ν) :=
  match frame.children[frame.child_i]? with
  | some child =>
    look succs frame.node child
      { s with work := { frame with child_i := frame.child_i + 1 } :: s.work }
  | none => do (← tell frame.node s).close succs frame.node

/-- `while work`; none when the fuel does not last. -/
def run : Nat → Search ν → Except Fault (Option (Search ν))
  | 0, _ => .ok none
  | fuel + 1, s =>
    match s.work with
    | [] => .ok (some s)
    | frame :: work => do run fuel (← turn succs frame { s with work })

/-- `for root in nodes`. -/
def roots (fuel : Nat) : List ν → Search ν → Except Fault (Option (Search ν))
  | [], s => .ok (some s)
  | root :: nodes, s =>
    if (s.index.get? root).isSome then roots fuel nodes s
    else do
      match ← run succs fuel (← s.meet succs root) with
      | none => return none
      | some s => roots fuel nodes s

end Search

/-- `cycles`: the components with more than one node, and the single nodes that succeed
themselves; none when the fuel does not last. -/
def cycles (fuel : Nat) (nodes : List ν) (succs : Dict ν (Finset ν)) :
    Except Fault (Option (List (List ν))) := do
  return (← Search.roots succs fuel nodes {}).map fun s => sortedList s.result

end Dsl41.Derive
