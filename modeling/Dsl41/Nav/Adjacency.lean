import Mathlib.Data.Prod.Lex
import Mathlib.Data.String.Basic
import Dsl41.Derive.Graph
import Dsl41.Infra.BreadthFirst

/-!
# The adjacency of a navigation

`_adjacency` reads a derived graph's edges into rows of neighbours with the atoms between, forwards or
in reverse. Without `include_all` a row holds the start gates between jobs of the graph and no others.
-/

namespace Dsl41.Nav

open Infra Derive

/-- A name, and whether it is of no job of the graph. -/
abbrev Node := String ×ₗ Bool

def node (name : String) (external : Bool) : Node := toLex (name, external)

def Node.name (n : Node) : String := (ofLex n).1

abbrev Adjacency := Dict Node (Dict Node (Finset String))

/-- What `add` is called with: the two ends and the atom's text. -/
structure Link where
  source : Node
  destination : Node
  atom : String

/-- `add`. -/
def add (reverse : Bool) (adjacency : Adjacency) (link : Link) : Adjacency :=
  let (source, destination) := if reverse then (link.destination, link.source) else (link.source, link.destination)
  let row := (adjacency.get? source).getD ∅
  let adjacency := adjacency.set source (row.set destination (insert link.atom ((row.get? destination).getD ∅)))
  if (adjacency.get? destination).isNone then adjacency.set destination ∅ else adjacency

/-- The job of an atom; a comparison of a global has none. -/
def jobOf : Oracle.Atom → Option Oracle.JobRef
  | .status a => some a.job
  | .exitCode a => some a.job
  | .global _ => none

/-- The turn of the loop at one edge. -/
def edgeLink (graph : DerivedGraph) (include_all : Bool) (edge : SourceEdge) :
    Except Conditions.DslError (Option Link) :=
  if !edge.isStartGate then .ok none
  else
    match jobOf edge.atom with
    | none => .ok none
    | some job =>
      let external := job.instance_.isSome || !(job.name ∈ graph.nodes)
      if external && !include_all then .ok none
      else do
        let atom ← Conditions.condToSource edge.node
        return some ⟨node edge.src external, node edge.dst false, atom⟩

/-- A job named in bare `n()` form. -/
def bareLink (graph : DerivedGraph) (consumer producer : String) : Except Conditions.DslError (Option Link) := do
  let atom ← Conditions.condToSource (.status ⟨producer, none⟩ .notRunning none none)
  return some ⟨node producer (!(producer ∈ graph.nodes)), node consumer false, atom⟩

/-- One link into the adjacency, when there is one. -/
def addLink (reverse : Bool) (adjacency : Adjacency) (link : Except Conditions.DslError (Option Link)) :
    Except Conditions.DslError Adjacency := do
  match ← link with
  | none => return adjacency
  | some link => return add reverse adjacency link

/-- `{(name, False): {} for name in nodes}`. -/
def blank (graph : DerivedGraph) : Adjacency := graph.nodes.foldl (fun a name => a.set (node name false) ∅) ∅

/-- The links of the loops, in their order. -/
def links (graph : DerivedGraph) (include_all : Bool) : List (Except Conditions.DslError (Option Link)) :=
  graph.edges.map (edgeLink graph include_all) ++
    if include_all then
      graph.bare_notrunning.entries.flatMap fun (consumer, producers) => producers.map (bareLink graph consumer)
    else []

/-- `_adjacency`. -/
def adjacencyOf (graph : DerivedGraph) (reverse include_all : Bool) : Except Conditions.DslError Adjacency :=
  (links graph include_all).foldlM (addLink reverse) (blank graph)

/-- `"; ".join(sorted(atoms))`. -/
def joined (atoms : Finset String) : String := "; ".intercalate (sorted atoms)

/-- `sorted(adjacency[current].items())`, each with its atoms joined. -/
def neighbors (adjacency : Adjacency) (current : Node) : List (Node × String) :=
  let row := (adjacency.get? current).getD ∅
  (sortedList row.keys).map fun destination => (destination, joined ((row.get? destination).getD ∅))

/-! ## Rows -/

section Rows

variable {A : Adjacency} {u v : Node} {link : Link} {reverse : Bool}

/-- The atoms between two nodes. -/
def Adjacency.atoms (A : Adjacency) (u v : Node) : Finset String := ((A.get? u).bind (·.get? v)).getD ∅

def Adjacency.Linked (A : Adjacency) (u v : Node) : Prop := (A.get? u).bind (·.get? v) ≠ none

/-- Every neighbour has a row. -/
def Adjacency.Closed (A : Adjacency) : Prop := ∀ u v, A.Linked u v → A.get? v ≠ none

/-- The end a link is read from. -/
def Link.from_ (link : Link) (reverse : Bool) : Node := if reverse then link.destination else link.source

/-- The end a link is read to. -/
def Link.to (link : Link) (reverse : Bool) : Node := if reverse then link.source else link.destination

/-- A destination without a row is given an empty one. -/
theorem get?_default {B : Adjacency} {d : Node} : ((if (B.get? d).isNone then B.set d ∅ else B).get? u).bind (·.get? v) =
    (B.get? u).bind (·.get? v) := by
  split
  · next hnone =>
    rw [Dict.get?_set]
    split
    · next heq =>
      rw [heq, Option.isNone_iff_eq_none.mp hnone]
      rfl
    · rfl
  · rfl

theorem add_eq : add reverse A link =
    let row := (A.get? (link.from_ reverse)).getD ∅
    let B := A.set (link.from_ reverse) (row.set (link.to reverse) (insert link.atom ((row.get? (link.to reverse)).getD ∅)))
    if (B.get? (link.to reverse)).isNone then B.set (link.to reverse) ∅ else B := by
  cases reverse <;> rfl

theorem add_cells : ((add reverse A link).get? u).bind (·.get? v) =
    if u = link.from_ reverse ∧ v = link.to reverse then some (insert link.atom (A.atoms u v))
    else (A.get? u).bind (·.get? v) := by
  rw [add_eq]
  dsimp only
  rw [get?_default, Dict.get?_set]
  by_cases hu : u = link.from_ reverse
  · rw [if_pos hu, Option.bind_some, Dict.get?_set]
    by_cases hv : v = link.to reverse
    · rw [if_pos hv, if_pos ⟨hu, hv⟩, hu, hv, Adjacency.atoms]
      cases A.get? (link.from_ reverse) with
      | none => rfl
      | some row => rfl
    · rw [if_neg hv, if_neg fun h => hv h.2, hu]
      cases A.get? (link.from_ reverse) with
      | none => rfl
      | some row => rfl
  · rw [if_neg hu, if_neg fun h => hu h.1]

theorem add_known : (add reverse A link).get? u ≠ none ↔
    A.get? u ≠ none ∨ u = link.from_ reverse ∨ u = link.to reverse := by
  rw [add_eq]
  dsimp only
  split
  · rw [Dict.get?_set, Dict.get?_set]
    by_cases hto : u = link.to reverse
    · simp [hto]
    · rw [if_neg hto]
      by_cases hfrom : u = link.from_ reverse
      · simp [hfrom]
      · simp [hto, hfrom]
  · next hsome =>
    rw [Dict.get?_set]
    by_cases hfrom : u = link.from_ reverse
    · simp [hfrom]
    · rw [if_neg hfrom]
      by_cases hto : u = link.to reverse
      · rw [Dict.get?_set] at hsome
        rw [hto] at hfrom
        rw [if_neg hfrom, Option.isNone_iff_eq_none] at hsome
        simp [hto, hsome]
      · simp [hfrom, hto]

theorem add_linked : (add reverse A link).Linked u v ↔ A.Linked u v ∨ u = link.from_ reverse ∧ v = link.to reverse := by
  unfold Adjacency.Linked
  rw [add_cells]
  split
  · next h => simp [h]
  · next h => simp [h]

theorem add_atoms : (add reverse A link).atoms u v =
    if u = link.from_ reverse ∧ v = link.to reverse then insert link.atom (A.atoms u v) else A.atoms u v := by
  rw [Adjacency.atoms, add_cells]
  split
  · rfl
  · rfl

theorem add_closed (h : A.Closed) : (add reverse A link).Closed := by
  intro u v hlinked
  rcases add_linked.mp hlinked with hold | ⟨-, hto⟩
  · exact add_known.mpr (.inl (h u v hold))
  · exact add_known.mpr (.inr (.inr hto))

/-- An edge of the neighbours is a cell of a row, with its atoms. -/
theorem mem_neighbors {l : String} : (v, l) ∈ neighbors A u ↔ A.Linked u v ∧ l = joined (A.atoms u v) := by
  unfold neighbors Adjacency.Linked Adjacency.atoms
  rw [List.mem_map]
  cases hrow : A.get? u with
  | none =>
    constructor
    · rintro ⟨w, hw, -⟩
      cases mem_sortedList.mp hw
    · rintro ⟨hne, -⟩
      exact absurd rfl hne
  | some row =>
    simp only [Option.getD_some, Option.bind_some, mem_sortedList, Prod.mk.injEq]
    constructor
    · rintro ⟨w, hw, rfl, rfl⟩
      exact ⟨fun hnone => Dict.get?_eq_none.mp hnone hw, rfl⟩
    · rintro ⟨hne, rfl⟩
      exact ⟨v, not_not.mp fun hv => hne (Dict.get?_eq_none.mpr hv), rfl, rfl⟩

theorem edge_neighbors : Edge (neighbors A) u v ↔ A.Linked u v := by
  constructor
  · rintro ⟨l, hl⟩
    exact (mem_neighbors.mp hl).1
  · exact fun h => ⟨_, mem_neighbors.mpr ⟨h, rfl⟩⟩

end Rows

/-! ## The loops -/

section Loops

variable {graph : DerivedGraph} {A : Adjacency} {u v : Node} {reverse include_all : Bool}

theorem edgeLink_ok (edge : SourceEdge) : ∃ link, edgeLink graph include_all edge = .ok link := by
  unfold edgeLink
  split
  · exact ⟨none, rfl⟩
  · split
    · exact ⟨none, rfl⟩
    · next job hjob =>
      dsimp only
      split
      · exact ⟨none, rfl⟩
      · obtain ⟨text, htext⟩ := condToSource_atom edge.node_atom fun g hg => by
          rw [hg] at hjob
          cases hjob
        rw [htext]
        exact ⟨_, rfl⟩

theorem links_ok : ∀ x ∈ links graph include_all, ∃ link, x = .ok link := by
  intro x hx
  rcases List.mem_append.mp hx with hx | hx
  · obtain ⟨edge, -, rfl⟩ := List.mem_map.mp hx
    exact edgeLink_ok edge
  · split at hx
    · obtain ⟨⟨consumer, producers⟩, -, hx⟩ := List.mem_flatMap.mp hx
      obtain ⟨producer, -, rfl⟩ := List.mem_map.mp hx
      exact ⟨_, rfl⟩
    · cases hx

/-- The links that are added. -/
def linkList (graph : DerivedGraph) (include_all : Bool) : List Link :=
  (links graph include_all).filterMap fun link => link.toOption.join

theorem foldlM_addLink : ∀ {l : List (Except Conditions.DslError (Option Link))} {A : Adjacency},
    (∀ x ∈ l, ∃ link, x = .ok link) →
    l.foldlM (addLink reverse) A = .ok ((l.filterMap fun link => link.toOption.join).foldl (add reverse) A)
  | [], _, _ => rfl
  | x :: l, A, h => by
    obtain ⟨link, rfl⟩ := h x List.mem_cons_self
    have hrest (B : Adjacency) : l.foldlM (addLink reverse) B =
        .ok ((l.filterMap fun link => link.toOption.join).foldl (add reverse) B) :=
      foldlM_addLink fun y hy => h y (List.mem_cons_of_mem _ hy)
    rw [List.foldlM_cons]
    cases link with
    | none => exact hrest A
    | some link => exact hrest (add reverse A link)

/-- **The adjacency is always built.** -/
theorem adjacencyOf_ok : adjacencyOf graph reverse include_all =
    .ok ((linkList graph include_all).foldl (add reverse) (blank graph)) := foldlM_addLink links_ok

theorem fold_linked : ∀ {l : List Link} {A : Adjacency},
    (l.foldl (add reverse) A).Linked u v ↔ A.Linked u v ∨ ∃ link ∈ l, u = link.from_ reverse ∧ v = link.to reverse
  | [], _ => by simp
  | link :: l, A => by
    rw [List.foldl_cons, fold_linked, add_linked, or_assoc]
    simp

theorem fold_atoms {text : String} : ∀ {l : List Link} {A : Adjacency},
    text ∈ (l.foldl (add reverse) A).atoms u v ↔
      text ∈ A.atoms u v ∨ ∃ link ∈ l, (u = link.from_ reverse ∧ v = link.to reverse) ∧ text = link.atom
  | [], _ => by simp
  | link :: l, A => by
    rw [List.foldl_cons, fold_atoms, add_atoms]
    split
    · next h =>
      rw [Finset.mem_insert]
      constructor
      · rintro ((rfl | hA) | ⟨link', hmem, hlink'⟩)
        · exact .inr ⟨link, List.mem_cons_self, h, rfl⟩
        · exact .inl hA
        · exact .inr ⟨link', List.mem_cons_of_mem _ hmem, hlink'⟩
      · rintro (hA | ⟨link', hmem, hends, htext⟩)
        · exact .inl (.inr hA)
        · rcases List.mem_cons.mp hmem with rfl | hmem
          · exact .inl (.inl htext)
          · exact .inr ⟨link', hmem, hends, htext⟩
    · next h =>
      simp [h]

theorem fold_known (l : List Link) (h : A.get? u ≠ none) : (l.foldl (add reverse) A).get? u ≠ none := by
  induction l generalizing A with
  | nil => exact h
  | cons link l ih => exact ih (add_known.mpr (.inl h))

theorem fold_closed (l : List Link) (h : A.Closed) : (l.foldl (add reverse) A).Closed := by
  induction l generalizing A with
  | nil => exact h
  | cons link l ih => exact ih (add_closed h)

theorem blank_get? : ∀ {l : List String} {A : Adjacency}, (∀ u row, A.get? u = some row → row = ∅) →
    (∀ u row, (l.foldl (fun a name => a.set (node name false) ∅) A).get? u = some row → row = ∅) ∧
      ∀ u, (l.foldl (fun a name => a.set (node name false) ∅) A).get? u ≠ none ↔
        A.get? u ≠ none ∨ ∃ name ∈ l, u = node name false
  | [], _, h => ⟨h, fun u => by simp⟩
  | name :: l, A, h => by
    have hset : ∀ u row, (A.set (node name false) ∅).get? u = some row → row = ∅ := by
      intro u row hrow
      rw [Dict.get?_set] at hrow
      split at hrow
      · exact (Option.some.inj hrow).symm
      · exact h u row hrow
    obtain ⟨hempty, hknown⟩ := blank_get? (l := l) hset
    refine ⟨hempty, fun u => (hknown u).trans ?_⟩
    rw [Dict.get?_set]
    split
    · next heq => simp [heq]
    · next hne => simp [hne]

theorem blank_linked : ¬(blank graph).Linked u v := by
  have hempty := (blank_get? (l := graph.nodes) (A := ∅) nofun).1
  unfold Adjacency.Linked
  rw [not_not]
  cases hrow : (blank graph).get? u with
  | none => rfl
  | some row =>
    rw [hempty u row hrow]
    rfl

theorem blank_known : (blank graph).get? u ≠ none ↔ ∃ name ∈ graph.nodes, u = node name false := by
  refine ((blank_get? (l := graph.nodes) (A := ∅) nofun).2 u).trans ?_
  simp

end Loops

/-! ## The start gates between jobs -/

/-- A start gate whose producer is a job of the graph. -/
def localGate (graph : DerivedGraph) (edge : SourceEdge) : Bool :=
  edge.isStartGate && edge.atom.localJob.any (· ∈ graph.nodes)

/-- The start gates from one job to another. -/
def gatesBetween (graph : DerivedGraph) (x y : String) : List SourceEdge :=
  graph.edges.filter fun edge => localGate graph edge && (edge.src = x && edge.dst = y)

def Feeds (graph : DerivedGraph) (x y : String) : Prop := gatesBetween graph x y ≠ []

/-- The texts of the atoms between two jobs. -/
def atomsBetween (graph : DerivedGraph) (x y : String) : Finset String :=
  ((gatesBetween graph x y).filterMap fun edge => (Conditions.condToSource edge.node).toOption).toFinset

section Gates

variable {graph : DerivedGraph} {edge : SourceEdge} {u v : Node} {reverse : Bool}

/-- The link of a start gate between jobs; no other edge has one. -/
theorem edgeLink_local {text : String} (htext : Conditions.condToSource edge.node = .ok text) :
    edgeLink graph false edge =
      .ok (if localGate graph edge then some ⟨node edge.src false, node edge.dst false, text⟩ else none) := by
  unfold edgeLink localGate
  rw [htext]
  cases hgate : edge.isStartGate with
  | false => rfl
  | true =>
    cases hatom : edge.atom with
    | global a => rfl
    | status a =>
      obtain ⟨⟨name, instance_⟩, status, lookback⟩ := a
      cases instance_ with
      | some i => rfl
      | none => by_cases hmem : name ∈ graph.nodes <;> simp [jobOf, Oracle.Atom.localJob, hmem]
    | exitCode a =>
      obtain ⟨⟨name, instance_⟩, op, value, lookback⟩ := a
      cases instance_ with
      | some i => rfl
      | none => by_cases hmem : name ∈ graph.nodes <;> simp [jobOf, Oracle.Atom.localJob, hmem]

theorem localGate_text (h : localGate graph edge = true) : ∃ text, Conditions.condToSource edge.node = .ok text := by
  refine condToSource_atom edge.node_atom fun g hg => ?_
  rw [localGate, hg, Bool.and_eq_true] at h
  cases h.2

theorem mem_linkList {link : Link} : link ∈ linkList graph false ↔
    ∃ edge ∈ graph.edges, localGate graph edge ∧ ∃ text, Conditions.condToSource edge.node = .ok text ∧
      link = ⟨node edge.src false, node edge.dst false, text⟩ := by
  have hlinks : links graph false = graph.edges.map (edgeLink graph false) := List.append_nil _
  rw [linkList, hlinks, List.filterMap_map, List.mem_filterMap]
  refine exists_congr fun edge => and_congr_right fun _ => ?_
  constructor
  · intro hlink
    by_cases hglobal : ∃ g, edge.atom = .global g
    · obtain ⟨g, hg⟩ := hglobal
      rw [Function.comp_apply, edgeLink, hg] at hlink
      split at hlink
      · cases hlink
      · cases hlink
    · obtain ⟨text, htext⟩ := condToSource_atom edge.node_atom fun g hg => hglobal ⟨g, hg⟩
      rw [Function.comp_apply, edgeLink_local htext] at hlink
      split at hlink
      · next hgate =>
        cases hlink
        exact ⟨hgate, text, htext, rfl⟩
      · cases hlink
  · rintro ⟨hgate, text, htext, rfl⟩
    rw [Function.comp_apply, edgeLink_local htext, if_pos hgate]
    rfl

theorem mem_gatesBetween {x y : String} :
    edge ∈ gatesBetween graph x y ↔ edge ∈ graph.edges ∧ localGate graph edge ∧ edge.src = x ∧ edge.dst = y := by
  simp [gatesBetween]

theorem mem_atomsBetween {x y text : String} : text ∈ atomsBetween graph x y ↔
    ∃ edge ∈ gatesBetween graph x y, Conditions.condToSource edge.node = .ok text := by
  rw [atomsBetween, List.mem_toFinset, List.mem_filterMap]
  refine exists_congr fun edge => and_congr_right fun _ => ?_
  cases Conditions.condToSource edge.node with
  | error e => simp [Except.toOption]
  | ok t => simp [Except.toOption]

/-- The rows without `include_all`. -/
def rows (graph : DerivedGraph) (reverse : Bool) : Adjacency := (linkList graph false).foldl (add reverse) (blank graph)

/-- A step of a walk, forwards or in reverse. -/
def Goes (graph : DerivedGraph) (reverse : Bool) (x y : String) : Prop :=
  if reverse then Feeds graph y x else Feeds graph x y

/-- The atoms of a step. -/
def between (graph : DerivedGraph) (reverse : Bool) (x y : String) : Finset String :=
  if reverse then atomsBetween graph y x else atomsBetween graph x y

theorem node_inj {x y : String} {b : Bool} (h : node x b = node y b) : x = y := (Prod.mk.inj (toLex.injective h)).1

/-- **A row holds the start gates between jobs.** -/
theorem rows_linked : (rows graph reverse).Linked u v ↔
    ∃ x y, u = node x false ∧ v = node y false ∧ Goes graph reverse x y := by
  have hfeeds (x y : String) : Feeds graph x y ↔ ∃ edge ∈ graph.edges, localGate graph edge ∧ edge.src = x ∧ edge.dst = y := by
    unfold Feeds
    rw [← List.isEmpty_eq_false_iff, List.isEmpty_eq_false_iff_exists_mem]
    simp only [mem_gatesBetween]
  rw [rows, fold_linked, or_iff_right blank_linked]
  constructor
  · rintro ⟨link, hlink, hu, hv⟩
    obtain ⟨edge, hedge, hgate, text, -, rfl⟩ := mem_linkList.mp hlink
    cases reverse with
    | false => exact ⟨edge.src, edge.dst, hu, hv, (hfeeds _ _).mpr ⟨edge, hedge, hgate, rfl, rfl⟩⟩
    | true => exact ⟨edge.dst, edge.src, hu, hv, (hfeeds _ _).mpr ⟨edge, hedge, hgate, rfl, rfl⟩⟩
  · rintro ⟨x, y, rfl, rfl, hgoes⟩
    cases reverse with
    | false =>
      obtain ⟨edge, hedge, hgate, rfl, rfl⟩ := (hfeeds _ _).mp hgoes
      obtain ⟨text, htext⟩ := localGate_text hgate
      exact ⟨_, mem_linkList.mpr ⟨edge, hedge, hgate, text, htext, rfl⟩, rfl, rfl⟩
    | true =>
      obtain ⟨edge, hedge, hgate, rfl, rfl⟩ := (hfeeds _ _).mp hgoes
      obtain ⟨text, htext⟩ := localGate_text hgate
      exact ⟨_, mem_linkList.mpr ⟨edge, hedge, hgate, text, htext, rfl⟩, rfl, rfl⟩

theorem blank_atoms : (blank graph).atoms u v = ∅ := by
  have hnone : ((blank graph).get? u).bind (·.get? v) = none := not_not.mp blank_linked
  rw [Adjacency.atoms, hnone]
  rfl

theorem rows_atoms (x y : String) : (rows graph reverse).atoms (node x false) (node y false) = between graph reverse x y := by
  have hmem (a b text : String) : text ∈ atomsBetween graph a b ↔
      ∃ link ∈ linkList graph false, (node a false = link.source ∧ node b false = link.destination) ∧ text = link.atom := by
    rw [mem_atomsBetween]
    constructor
    · rintro ⟨edge, hbetween, htext⟩
      obtain ⟨hedge, hgate, rfl, rfl⟩ := mem_gatesBetween.mp hbetween
      exact ⟨_, mem_linkList.mpr ⟨edge, hedge, hgate, text, htext, rfl⟩, ⟨rfl, rfl⟩, rfl⟩
    · rintro ⟨link, hlink, ⟨ha, hb⟩, rfl⟩
      obtain ⟨edge, hedge, hgate, text, htext, rfl⟩ := mem_linkList.mp hlink
      exact ⟨edge, mem_gatesBetween.mpr ⟨hedge, hgate, (node_inj ha).symm, (node_inj hb).symm⟩, htext⟩
  ext text
  rw [rows, fold_atoms, blank_atoms, or_iff_right (Finset.notMem_empty text)]
  cases reverse with
  | false => exact (hmem x y text).symm
  | true =>
    refine Iff.trans ?_ (hmem y x text).symm
    exact exists_congr fun link => and_congr_right fun _ => and_congr_left fun _ => and_comm

theorem rows_known {name : String} (h : name ∈ graph.nodes) : (rows graph reverse).get? (node name false) ≠ none :=
  fold_known _ (blank_known.mpr ⟨name, h, rfl⟩)

end Gates

end Dsl41.Nav
