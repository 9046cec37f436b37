import Mathlib.Data.Finset.Basic
import Mathlib.Data.List.Sort
import Mathlib.Data.String.Basic

/-!
# Statechart declarations and their index

A `Statechart` is plain data: a tree of states with orthogonal regions, rows, choices,
deferrals, time events and a registry of named guards and actions. `index` reads the tree and
the rows once; every query of the executor goes through it.

Four type parameters stand for what the executor never looks into:

* `κ` — instance keys (`Hashable`)
* `υ` — payloads, instance data and intents (`Any`)
* `ω` — the world outside the executor, which guards read and actions move

Prose of a declaration that no modelled function reads (`cite`, `note`, `mark`) is left out,
and so are the memo tables of the index (`plans`, `legal`, `initial`): they hold values of the
pure functions below.
-/

namespace Dsl41.StateMachine

abbrev Name := String

/-- The event of a completion transition. -/
def COMPLETION : Name := ""

/-- The event the actions of an initial entry see. -/
def INITIAL : Name := "<initial>"

/-- The event of the internal row that records an event the `drop` policy dropped. -/
def OVERFLOWED : Name := "overflowed"

inductive RowKind where
  | external | internal | ignored | refusal
  deriving DecidableEq, Repr

inductive Overflow where
  | unset | stop | drop
  deriving DecidableEq, Repr

inductive Clock where
  | unset | logical | monotonic
  deriving DecidableEq, Repr

/-- One link of an item's ancestry: an instance key and the event of a microstep. -/
abbrev Link (κ : Type) := κ × Name

/-- An event for one instance. A re-armable time event carries its generation. -/
structure Event (υ : Type) where
  name : Name
  payload : υ
  generation : Option Int := none

/-- What an action reports. `andThen` is the source's `then`. -/
structure Effects (κ υ : Type) where
  send : List (κ × Event υ) := []
  andThen : Name := ""
  intents : List υ := []
  rearm : List Name := []

/-- What a guard or an action sees. -/
structure Context (κ υ : Type) where
  key : κ
  event : Event υ
  active : Finset Name
  data : υ
  ancestry : List (Link κ) := []
  quiet : Bool := false
  completing : Name := ""

/-- The item's ancestry depth; 0 for a root item. -/
def Context.depth {κ υ : Type} (ctx : Context κ υ) : Nat := ctx.ancestry.length

/-- How many links of the item's ancestry are `link`. -/
def Context.count {κ υ : Type} [DecidableEq κ] (ctx : Context κ υ) (link : Link κ) : Nat :=
  ctx.ancestry.count link

abbrev Guard (κ υ ω : Type) := Context κ υ → ω → Bool
abbrev Action (κ υ ω : Type) := Context κ υ → ω → Option (Effects κ υ) × ω

/-! ## The tree of states -/

mutual

/-- A state; with regions it is composite. -/
inductive State where
  | mk (name : Name) (regions : List Region) (entry exit : Name) (defer : List Name)
      (final : Bool) (wait : List Name) (stays : String)

/-- An orthogonal region. Its initial pseudostate enters `initial`. -/
inductive Region where
  | mk (name : Name) (initial : Name) (states : List State)

end

namespace State

def name : State → Name | mk n _ _ _ _ _ _ _ => n
def regions : State → List Region | mk _ r _ _ _ _ _ _ => r
def entry : State → Name | mk _ _ a _ _ _ _ _ => a
def exit : State → Name | mk _ _ _ a _ _ _ _ => a
def defer : State → List Name | mk _ _ _ _ d _ _ _ => d
def final : State → Bool | mk _ _ _ _ _ f _ _ => f
def wait : State → List Name | mk _ _ _ _ _ _ w _ => w
def stays : State → String | mk _ _ _ _ _ _ _ s => s

end State

namespace Region

def name : Region → Name | mk n _ _ => n
def initial : Region → Name | mk _ i _ => i
def states : Region → List State | mk _ _ s => s

end Region

/-! ## Rows, choices and charts -/

/-- One declared transition. -/
structure Row where
  id : Name
  source : Name
  event : Name
  target : Name := ""
  guard : Name := ""
  action : Name := ""
  kind : RowKind := .external
  code : String := ""
  falseUnreachable : String := ""
  deriving DecidableEq, Repr

/-- One branch of a choice. An empty guard marks the else branch. -/
structure Branch where
  id : Name
  target : Name
  guard : Name := ""
  action : Name := ""
  falseUnreachable : String := ""
  deriving DecidableEq, Repr

/-- A choice pseudostate: branches tried in order. -/
structure Choice where
  name : Name
  branches : List Branch
  deriving DecidableEq, Repr

structure TimeEvent where
  name : Name
  generation : Bool := false
  deriving DecidableEq, Repr

structure Exclusion where
  state : Name
  event : Name
  reason : String
  partition : String := ""
  deriving DecidableEq, Repr

/-- A declaration: the type of its instances. -/
structure Statechart (κ υ ω : Type) where
  name : Name
  root : State
  rows : List Row
  choices : List Choice := []
  guards : Name → Option (Guard κ υ ω) := fun _ => none
  actions : Name → Option (Action κ υ ω) := fun _ => none
  timeEvents : List TimeEvent := []
  clock : Clock := .unset
  deferBound : Nat := 0
  overflow : Overflow := .unset
  exclusions : List Exclusion := []

/-- Why a set of states is no configuration, with the facts the text names. -/
inductive ConfigurationProblem where
  | notDeclared (state : Name)
  | rootNotActive (root : Name)
  | parentNotActive (state parent : Name)
  | regionCount (state : Name) (count : Nat) (region : Name)
  deriving DecidableEq, Repr

/-- What the executor raises, with the facts its message names. -/
inductive StatechartError where
  | ambiguousRows (rows : List Name) (state event : Name)
  | ambiguousExits (a b : Name) (candidates : List Name)
  | refusalBeside (refusal : Name) (others candidates : List Name)
  | unhandledEvent (event : Name) (active : List Name)
  | unhandledCompletion (state : Name)
  | noEnabledBranch (choice : Name)
  | noOverflowedRow (state : Name)
  | deferralOverflow (bound : Nat) (event : Name)
  | notInRegistry (what name : Name)
  | notPostable (event : Name)
  | needsGeneration (event : Name)
  | notRearmable (timer : Name)
  | noInstance
  | instanceExists
  | notAConfiguration (problem : ConfigurationProblem)
  | notFinal
  | eventsStillToHandle
  | stopIteration
  deriving DecidableEq, Repr

/-- The class `AmbiguousTransition`. -/
def StatechartError.ambiguous : StatechartError → Bool
  | .ambiguousRows .. | .ambiguousExits .. | .refusalBeside .. => true
  | _ => false

/-- The class `UnhandledEvent`. -/
def StatechartError.unhandled : StatechartError → Bool
  | .unhandledEvent .. | .unhandledCompletion _ | .noEnabledBranch _ | .noOverflowedRow _ => true
  | _ => false

/-! ## The index -/

/-- One state as the index holds it: its node and its place in the tree. -/
structure Entry where
  state : State
  parent : Option Name
  slot : Nat
  depth : Nat

def Entry.name (e : Entry) : Name := e.state.name

mutual

/-- `_add_state`: the state, then every state below it, in declaration order. -/
def addState (parent : Option Name) (slot depth : Nat) : State → List Entry
  | .mk n rs a b d f w s =>
    ⟨.mk n rs a b d f w s, parent, slot, depth⟩ :: addRegions n 0 (depth + 1) rs

def addRegions (owner : Name) (slot depth : Nat) : List Region → List Entry
  | [] => []
  | .mk _ _ ss :: rs => addStates owner slot depth ss ++ addRegions owner (slot + 1) depth rs

def addStates (owner : Name) (slot depth : Nat) : List State → List Entry
  | [] => []
  | s :: ss => addState (some owner) slot depth s ++ addStates owner slot depth ss

end

/-- A declaration's tree and rows, read once. -/
structure Index where
  root : Name
  entries : List Entry
  rows : List Row
  choices : List Choice
  generational : List Name

def index {κ υ ω : Type} (chart : Statechart κ υ ω) : Index where
  root := chart.root.name
  entries := addState none 0 0 chart.root
  rows := chart.rows
  choices := chart.choices
  generational := (chart.timeEvents.filter (·.generation)).map (·.name)

namespace Index

variable (ix : Index)

/-- The states in declaration order. -/
def order : List Name := ix.entries.map (·.name)

/-- The entry of a name; a later declaration of a name overwrites an earlier one. -/
def entry? (s : Name) : Option Entry := ix.entries.reverse.find? (·.name = s)

def state? (s : Name) : Option State := (ix.entry? s).map (·.state)
def parent (s : Name) : Option Name := (ix.entry? s).bind (·.parent)
def slot (s : Name) : Nat := ((ix.entry? s).map (·.slot)).getD 0
def depth (s : Name) : Nat := ((ix.entry? s).map (·.depth)).getD 0
def regions (s : Name) : List Region := ((ix.state? s).map (·.regions)).getD []
def defer (s : Name) : List Name := ((ix.state? s).map (·.defer)).getD []
def final (s : Name) : Bool := ((ix.state? s).map (·.final)).getD false

/-- The rows of a state for an event, in declaration order. -/
def rowsFor (s event : Name) : List Row := ix.rows.filter fun r => r.source = s ∧ r.event = event

def choice? (n : Name) : Option Choice := ix.choices.reverse.find? (·.name = n)

/-- One more than the greatest depth: the fuel of every walk down or up the tree. -/
def height : Nat := (ix.entries.map (·.depth)).foldr max 0 + 1

/-- The states of one region, sorted by name; `none` owns the root's region. -/
def members (owner : Option Name) (slot : Nat) : List Name :=
  (ix.order.filter fun s => ix.parent s = owner ∧ ix.slot s = slot).insertionSort (· ≤ ·)

def pathFrom : Nat → Name → List Name
  | 0, s => [s]
  | n + 1, s => s :: (match ix.parent s with | some p => pathFrom n p | none => [])

/-- `_path`: a state and its ancestors, innermost first. -/
def path (s : Name) : List Name := ix.pathFrom ix.height s

/-- `_below`: `s` is a proper descendant of `ancestor`. -/
def below (s ancestor : Name) : Bool := (ix.path s).tail.contains ancestor

end Index

/-- The length of the common prefix of two lists. -/
def common : List Name → List Name → Nat
  | a :: as, b :: bs => if a = b then common as bs + 1 else 0
  | _, _ => 0

/-- The length of the common prefix of a list and all of `others`. -/
def commonAll : List Name → List (List Name) → Nat
  | a :: as, others =>
    if others.all (·.head? = some a) then commonAll as (others.map List.tail) + 1 else 0
  | [], _ => 0

/-- What follows the first occurrence of `o`. -/
def after (l : List Name) (o : Name) : List Name := (l.dropWhile (· ≠ o)).tail

namespace Index

variable (ix : Index)

/-- `_crosses_regions`: `a` and `b` lie in two sibling regions of their common ancestor. -/
def crossesRegions (a b : Name) : Bool :=
  let pa := (ix.path a).reverse
  let pb := (ix.path b).reverse
  let n := common pa pb
  match pa[n]?, pb[n]? with
  | some x, some y => ix.slot x ≠ ix.slot y
  | _, _ => false

/-- `_targets`: the states an external row may end in. -/
def targets (row : Row) : List Name :=
  match ix.choice? row.target with
  | none => [row.target]
  | some choice => choice.branches.map (·.target)

/-- `_domain`: the innermost region that holds the source and every target. When one endpoint
contains the others, that state is left too, so the region holds it. -/
def domain (source : Name) (targets : List Name) : Option Name × Nat :=
  let p := (ix.path source).reverse
  let others := targets.map fun t => (ix.path t).reverse
  let n := commonAll p others
  let top := p.getD (n - 1) source
  if (p :: others).any (·.length = n) then (ix.parent top, ix.slot top)
  else (some top, ix.slot (p.getD n source))

/-- `_entry_path`: the states from just inside the domain down to `target`. -/
def entryPath (owner : Option Name) (target : Name) : List Name :=
  match owner with
  | none => (ix.path target).reverse
  | some o => after (ix.path target).reverse o

/-- `_top_below`: the state of `source`'s path that the owner's region holds. -/
def topBelow (source : Name) (owner : Option Name) : Name :=
  (ix.entryPath owner source).head?.getD source

/-- `_exit_top`: the outermost state an external row leaves. -/
def exitTop (row : Row) : Name := ix.topBelow row.source (ix.domain row.source (ix.targets row)).1

/-- `_active_child`: the active state of one region. -/
def activeChild (active : Finset Name) (owner : Option Name) (slot : Nat) :
    Except StatechartError Name :=
  match (ix.members owner slot).find? (· ∈ active) with
  | some s => .ok s
  | none => .error .stopIteration

/-- `_leaves`: the innermost active states, in region declaration order. -/
def leaves (active : Finset Name) : List Name :=
  ix.order.filter fun s => s ∈ active ∧ ix.regions s = []

/-- `_final_leaves`: the active leaves when every one of them is final, else none. -/
def finalLeaves (active : Finset Name) : List Name :=
  if (ix.leaves active).all ix.final then ix.leaves active else []

/-- `_exit_order`: the active subtree of `top`, inner to outer. -/
def exitOrderFrom (active : Finset Name) : Nat → Name → Except StatechartError (List Name)
  | 0, _ => .error .stopIteration
  | n + 1, top => do
    let inner ← (List.range (ix.regions top).length).mapM fun slot => do
      let child ← ix.activeChild active (some top) slot
      exitOrderFrom active n child
    return inner.flatten ++ [top]

def exitOrder (active : Finset Name) (top : Name) : Except StatechartError (List Name) :=
  ix.exitOrderFrom active ix.height top

/-- `_entry_order`: enter the head of the path, then down the path, outer to inner; the other
regions enter their initial state. -/
def entryOrderFrom : Nat → List Name → List Name
  | 0, _ => []
  | _ + 1, [] => []
  | n + 1, state :: down =>
    state :: (ix.regions state).zipIdx.flatMap fun (region, slot) =>
      match down with
      | next :: _ =>
        if ix.slot next = slot then entryOrderFrom n down else entryOrderFrom n [region.initial]
      | [] => entryOrderFrom n [region.initial]

def entryOrder (path : List Name) : List Name := ix.entryOrderFrom ix.height path

/-- `_initial_entry`: the states the initial entry enters, outer to inner. -/
def initialEntry : List Name := ix.entryOrder [ix.root]

end Index

/-! ## Plans -/

/-- `_Plan`: what the declaration alone fixes about one external row's run. -/
structure Plan where
  row : Row
  domain : Option Name × Nat
  top : Name
  leaving : Option (List Name)

/-- `_build_plan`. -/
def Index.plan (ix : Index) (row : Row) : Plan :=
  let domain := ix.domain row.source (ix.targets row)
  let top := ix.topBelow row.source domain.1
  ⟨row, domain, top, if ix.regions top = [] then some [top] else none⟩

/-- `plan.leaving or _exit_order(...)`: the states a row leaves in a configuration. -/
def Plan.exits (ix : Index) (plan : Plan) (active : Finset Name) :
    Except StatechartError (List Name) :=
  match plan.leaving with
  | some l => .ok l
  | none => ix.exitOrder active plan.top

/-- `_entry_of`: the states a row enters, outer to inner, when it ends in `target`. -/
def Plan.entryOf (ix : Index) (plan : Plan) (target : Name) : List Name :=
  ix.entryOrder (ix.entryPath plan.domain.1 target)

end Dsl41.StateMachine
