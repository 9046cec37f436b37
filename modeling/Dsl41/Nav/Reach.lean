import Dsl41.Nav.Navigate

/-!
# What a query answers

Every query ends. Without `include_all` the ancestors and the descendants of a job are the jobs that
start gates lead from or to, and a path is a shortest one along them.

* `query_ends` — an answer for every query of every graph
* `relatives_answer` — the two walks
* `path_answer` — the path, or the refusal
-/

namespace Dsl41.Nav

open Infra Derive

variable {graph : DerivedGraph} {A : Adjacency} {start u v : Node} {x y : String} {reverse : Bool} {depth : Option Nat}
  {q : Query} {answer answer' : Except NavError (List Match)}

/-! ## Answers -/

theorem Answers.unique (h : Answers graph q answer) (h' : Answers graph q answer') : answer = answer' := by
  obtain ⟨bound, hbound⟩ := h
  obtain ⟨bound', hbound'⟩ := h'
  have hfirst := hbound (max bound bound') (le_max_left _ _)
  rw [hbound' (max bound bound') (le_max_right _ _)] at hfirst
  exact (Option.some.inj hfirst).symm

/-- The walk of a closed adjacency ends. -/
theorem walk_ends (hclosed : A.Closed) (hstart : A.get? start ≠ none) (depth : Option Nat) :
    ∃ bound tree level, tree.Sound (neighbors A) depth start level ∧
      ∀ fuel ≥ bound, walk fuel A start depth = some tree := by
  have hmem (w : Node) : w ∈ A.keys.toFinset ↔ A.get? w ≠ none := by
    rw [List.mem_toFinset, ← not_iff_not, not_not]
    exact Dict.get?_eq_none.symm
  obtain ⟨tree, htree⟩ : ∃ tree, breadthFirst (neighbors A) depth start (A.keys.toFinset.card + 1) = some tree := by
    refine breadthFirst_ends ((hmem start).mpr hstart) (fun w _ e he => ?_) (Nat.lt_succ_self _)
    obtain ⟨v, l⟩ := e
    exact (hmem v).mpr (hclosed w v (mem_neighbors.mp he).1)
  obtain ⟨level, hsound⟩ := breadthFirst_sound htree
  exact ⟨_, tree, level, hsound, fun fuel hfuel => drain_mono _ _ htree hfuel⟩

theorem nodeOf_known {name : String} (h : nodeOf A name = some start) : A.get? start ≠ none := by
  obtain ⟨external, -, hsome⟩ := List.exists_of_findSome?_eq_some h
  split at hsome
  · next hknown =>
    cases hsome
    exact Option.isSome_iff_ne_none.mp hknown
  · cases hsome

/-! ## Every query ends -/

theorem pathTo_ends {tree : Tree Node String} {level : Node → Nat} (h : tree.Sound (neighbors A) depth start level)
    (job target : String) : ∃ bound answer, ∀ fuel ≥ bound, pathTo fuel A tree.found start job target = some answer := by
  unfold pathTo
  cases nodeOf A target with
  | none => exact ⟨0, _, fun _ _ => rfl⟩
  | some stop =>
    by_cases hhas : tree.Has start stop
    · obtain ⟨way, -, -, hback⟩ := backtrack_spec h hhas
      refine ⟨level stop + 1, .ok (⟨job, ""⟩ :: way.map fun e => ⟨e.1.name, e.2⟩), fun fuel hfuel => ?_⟩
      dsimp only
      rw [hback fuel hfuel, List.append_nil]
      rfl
    · obtain ⟨hne, hfound⟩ := not_or.mp hhas
      refine ⟨1, .error (.noPath job target), fun fuel hfuel => ?_⟩
      obtain ⟨fuel, rfl⟩ := Nat.exists_eq_add_one_of_ne_zero (Nat.ne_of_gt hfuel)
      dsimp only
      rw [backtrack_absent hne (not_not.mp hfound)]
      rfl

theorem dependencies_end (graph : DerivedGraph) (verb : Verb) (q : Query) :
    ∃ bound answer, ∀ fuel ≥ bound, dependencies fuel graph verb q = some answer := by
  unfold dependencies
  rw [adjacencyOf_ok]
  dsimp only
  have hclosed : ∀ reverse, ((linkList graph q.include_all).foldl (add reverse) (blank graph)).Closed := fun reverse =>
    fold_closed _ fun u v h => absurd h blank_linked
  cases hstart : nodeOf ((linkList graph q.include_all).foldl (add (verb = .fanins ∨ verb = .ancestors)) (blank graph))
      q.job with
  | none => exact ⟨0, _, fun _ _ => rfl⟩
  | some start =>
    dsimp only
    split
    · exact ⟨0, _, fun _ _ => rfl⟩
    · obtain ⟨bound, tree, level, hsound, hwalk⟩ := walk_ends (hclosed _) (nodeOf_known hstart) (q.depth.map Int.toNat)
      split
      · obtain ⟨bound', answer, hpath⟩ := pathTo_ends hsound q.job (q.target.getD "")
        refine ⟨max bound bound', answer, fun fuel hfuel => ?_⟩
        rw [hwalk fuel (le_trans (le_max_left _ _) hfuel)]
        exact hpath fuel (le_trans (le_max_right _ _) hfuel)
      · refine ⟨bound, .ok (matchesOf (tree.found.entries.map fun e => (e.1, e.2.2))), fun fuel hfuel => ?_⟩
        rw [hwalk fuel hfuel]
        rfl

/-- A box's members are looked at once each. -/
theorem member_measure (deep : Bool) (box : String) {U : Finset String} {name : String} {s : Dict String Match × List String}
    (hname : name ∈ U) (hs : s.1.keys.toFinset ⊆ U) :
    (member deep box s name).1.keys.toFinset ⊆ U ∧
      (U \ (member deep box s name).1.keys.toFinset).card + (member deep box s name).2.length ≤
        (U \ s.1.keys.toFinset).card + s.2.length := by
  unfold member
  split
  · exact ⟨hs, le_rfl⟩
  · next hnone =>
    have hout : name ∉ s.1.keys := by
      rw [← Dict.get?_eq_none]
      simpa using hnone
    have hkeys : (s.1.set name ⟨name, boxName box⟩).keys.toFinset = insert name s.1.keys.toFinset := by
      rw [Dict.keys, Dict.entries_set hout, List.map_append, List.toFinset_append]
      exact Finset.union_comm _ _
    have hless : (U \ insert name s.1.keys.toFinset).card < (U \ s.1.keys.toFinset).card := by
      rw [Finset.sdiff_insert]
      exact Finset.card_erase_lt_of_mem (Finset.mem_sdiff.mpr ⟨hname, fun h => hout (List.mem_toFinset.mp h)⟩)
    dsimp only
    rw [hkeys]
    refine ⟨Finset.insert_subset hname hs, ?_⟩
    split
    · rw [List.length_append, List.length_singleton]
      omega
    · omega

theorem members_measure (deep : Bool) (box : String) {U : Finset String} : ∀ {l : List String}
    {s : Dict String Match × List String}, (∀ name ∈ l, name ∈ U) → s.1.keys.toFinset ⊆ U →
    (l.foldl (member deep box) s).1.keys.toFinset ⊆ U ∧
      (U \ (l.foldl (member deep box) s).1.keys.toFinset).card + (l.foldl (member deep box) s).2.length ≤
        (U \ s.1.keys.toFinset).card + s.2.length
  | [], _, _, hs => ⟨hs, le_rfl⟩
  | name :: l, s, hl, hs => by
    have hmember := member_measure deep box (hl name List.mem_cons_self) hs
    obtain ⟨hs', hle⟩ := members_measure deep box (fun n hn => hl n (List.mem_cons_of_mem _ hn)) hmember.1
    exact ⟨hs', hle.trans hmember.2⟩

theorem boxes_end (graph : DerivedGraph) (verb : Verb) (q : Query) :
    ∃ bound answer, ∀ fuel ≥ bound, boxes fuel graph verb q = some answer := by
  unfold boxes
  split
  · exact ⟨0, _, fun _ _ => rfl⟩
  · dsimp only
    split
    · exact ⟨0, _, fun _ _ => rfl⟩
    · exact ⟨0, _, fun _ _ => rfl⟩
    · exact ⟨0, _, fun _ _ => rfl⟩
    · split
      · exact ⟨0, _, fun _ _ => rfl⟩
      · exact ⟨0, _, fun _ _ => rfl⟩
    · let U : Finset String := (graph.box_tree.children.entries.flatMap Prod.snd).toFinset
      have hU (box name : String) (hname : name ∈ (graph.box_tree.children.get? box).getD []) : name ∈ U := by
        cases hbox : graph.box_tree.children.get? box with
        | none =>
          rw [hbox] at hname
          cases hname
        | some l =>
          rw [hbox] at hname
          exact List.mem_toFinset.mpr (List.mem_flatMap.mpr ⟨(box, l), Dict.get?_eq_some.mp hbox, hname⟩)
      have hturn (s : Dict String Match) (box : String) (hs : s.keys.toFinset ⊆ U) :
          (members graph.box_tree q.deep box s).1.keys.toFinset ⊆ U ∧
            (U \ (members graph.box_tree q.deep box s).1.keys.toFinset).card +
              (members graph.box_tree q.deep box s).2.length ≤ (U \ s.keys.toFinset).card :=
        members_measure q.deep box (hU box) hs
      have hempty : (∅ : Dict String Match).keys.toFinset ⊆ U := Finset.empty_subset U
      obtain ⟨found, hfound⟩ : ∃ found, drain (members graph.box_tree q.deep) (U.card + 2) ∅ [q.job] = some found := by
        refine drain_ends (P := fun s _ => s.keys.toFinset ⊆ U) (m := fun s => (U \ s.keys.toFinset).card)
          (fun s box _ hs => (hturn s box hs).1) (fun s box _ hs => (hturn s box hs).2) hempty ?_
        have hcard : (U \ (∅ : Dict String Match).keys.toFinset).card ≤ U.card := Finset.card_le_card Finset.sdiff_subset
        rw [List.length_singleton]
        omega
      refine ⟨U.card + 2, .ok ((sortedList found.keys).filterMap found.get?), fun fuel hfuel => ?_⟩
      rw [drain_mono _ fuel hfound hfuel]
      rfl
    · exact ⟨0, _, fun _ _ => rfl⟩

/-- **Every query ends, whatever circles the graph or the box tree has.** -/
theorem query_ends (graph : DerivedGraph) (q : Query) : ∃ answer, Answers graph q answer := by
  unfold Answers navigate
  cases validateQuery q.verb q.target q.depth q.deep q.include_all false with
  | error e => exact ⟨_, 0, fun _ _ => rfl⟩
  | ok verb =>
    dsimp only
    split
    · obtain ⟨bound, answer, h⟩ := dependencies_end graph verb q
      exact ⟨answer, bound, h⟩
    · obtain ⟨bound, answer, h⟩ := boxes_end graph verb q
      exact ⟨answer, bound, h⟩

/-! ## Walks between jobs -/

/-- A walk from a job meets jobs of the same kind, one step after the other. -/
theorem steps_rows {n : Nat} : Steps (Edge (neighbors (rows graph reverse))) n (node x false) v ↔
    ∃ y, v = node y false ∧ Steps (Goes graph reverse) n x y := by
  have hedge {u v : Node} : Edge (neighbors (rows graph reverse)) u v ↔
      ∃ x y, u = node x false ∧ v = node y false ∧ Goes graph reverse x y := edge_neighbors.trans rows_linked
  induction n generalizing v with
  | zero =>
    constructor
    · rintro rfl
      exact ⟨x, rfl, rfl⟩
    · rintro ⟨y, rfl, rfl⟩
      rfl
  | succ n ih =>
    constructor
    · rintro ⟨u, hu, huv⟩
      obtain ⟨z, hz, hsteps⟩ := ih.mp hu
      obtain ⟨z', y, hz', rfl, hgoes⟩ := hedge.mp huv
      have hsame : z = z' := node_inj (hz.symm.trans hz')
      exact ⟨y, rfl, z, hsteps, hsame ▸ hgoes⟩
    · rintro ⟨y, rfl, z, hsteps, hgoes⟩
      exact ⟨node z false, ih.mpr ⟨z, rfl, hsteps⟩, hedge.mpr ⟨z, y, rfl, rfl, hgoes⟩⟩

theorem nodeOf_rows (hx : x ∈ graph.nodes) : nodeOf (rows graph reverse) x = some (node x false) := by
  rw [nodeOf, List.findSome?_cons, if_pos (Option.isSome_iff_ne_none.mpr (rows_known hx))]

theorem adjacencyOf_rows : adjacencyOf graph reverse false = .ok (rows graph reverse) := adjacencyOf_ok

theorem rows_closed : (rows graph reverse).Closed := fold_closed _ fun _ _ h => absurd h blank_linked

/-! ## Names -/

/-- The names of the matches are those of the nodes, each once. -/
theorem mem_matchesOf (found : List (Node × String)) :
    ((matchesOf found).map (·.name)).Nodup ∧ ∀ z, z ∈ (matchesOf found).map (·.name) ↔ ∃ e ∈ found, e.1.name = z := by
  let step (d : Dict String (Finset String)) (e : Node × String) : Dict String (Finset String) :=
    d.set e.1.name (insert e.2 ((d.get? e.1.name).getD ∅))
  have hkeys (l : List (Node × String)) : ∀ (d : Dict String (Finset String)) (z : String),
      z ∈ (l.foldl step d).keys ↔ z ∈ d.keys ∨ ∃ e ∈ l, e.1.name = z := by
    induction l with
    | nil => simp
    | cons e l ih =>
      intro d z
      have hset : z ∈ (step d e).keys ↔ z = e.1.name ∨ z ∈ d.keys := Dict.mem_keys_setIn
      rw [List.foldl_cons, ih, hset]
      simp only [List.mem_cons, exists_eq_or_imp]
      tauto
  have hnames : (matchesOf found).map (·.name) = sortedList (found.foldl step ∅).keys := by
    rw [matchesOf, List.map_map]
    exact List.map_id _
  rw [hnames]
  refine ⟨(sortedList_perm.nodup_iff).mpr (Dict.keys_nodup _), fun z => ?_⟩
  rw [mem_sortedList, hkeys, or_iff_right (by intro h; cases h)]

/-! ## The walks -/

/-- The query of the ancestors or of the descendants of a job, up to a depth. -/
def walkQuery (ancestors : Bool) (job : String) (depth : Option Nat) : Query :=
  { verb := if ancestors then "ancestors" else "descendants", job, depth := depth.map Int.ofNat }

def walkVerb (ancestors : Bool) : Verb := if ancestors then .ancestors else .descendants

theorem validate_walk (ancestors : Bool) (depth : Option Nat) :
    validateQuery (walkQuery ancestors x depth).verb none (depth.map Int.ofNat) false false false =
      .ok (walkVerb ancestors) := by
  have hdepth : ((depth.map Int.ofNat).any fun d => d < 0) = false := by
    cases depth with
    | none => rfl
    | some d => exact decide_eq_false (Int.not_lt.mpr (Int.natCast_nonneg d))
  cases ancestors with
  | false =>
    have hlookup : VERBS.lookup "descendants" = some .descendants := by decide
    cases depth <;> simp [validateQuery, walkQuery, walkVerb, hlookup] <;> rfl
  | true =>
    have hlookup : VERBS.lookup "ancestors" = some .ancestors := by decide
    cases depth <;> simp [validateQuery, walkQuery, walkVerb, hlookup] <;> rfl

/-- A dependency verb about a known job starts at the job's node. -/
theorem dependencies_known {q : Query} {verb : Verb} {fuel : Nat} (hjob : q.job ∈ graph.nodes)
    (hedges : q.include_all = false) : dependencies fuel graph verb q =
      if verb = .fanins ∨ verb = .fanouts then
        some (.ok (matchesOf (neighbors (rows graph (verb = .fanins ∨ verb = .ancestors)) (node q.job false))))
      else
        (walk fuel (rows graph (verb = .fanins ∨ verb = .ancestors)) (node q.job false) (q.depth.map Int.toNat)).bind
          fun tree =>
            if verb = .path then
              pathTo fuel (rows graph (verb = .fanins ∨ verb = .ancestors)) tree.found (node q.job false) q.job
                (q.target.getD "")
            else some (.ok (matchesOf (tree.found.entries.map fun e => (e.1, e.2.2)))) := by
  rw [dependencies, hedges, adjacencyOf_rows]
  dsimp only
  rw [nodeOf_rows hjob]

theorem navigate_walk (ancestors : Bool) (hx : x ∈ graph.nodes) (depth : Option Nat) (fuel : Nat) :
    navigate fuel graph (walkQuery ancestors x depth) =
      (walk fuel (rows graph ancestors) (node x false) depth).bind fun tree =>
        some (.ok (matchesOf (tree.found.entries.map fun e => (e.1, e.2.2)))) := by
  have hdepth : (walkQuery ancestors x depth).depth.map Int.toNat = depth := by
    cases depth with
    | none => rfl
    | some d => rfl
  have hvalid : validateQuery (walkQuery ancestors x depth).verb (walkQuery ancestors x depth).target
      (walkQuery ancestors x depth).depth (walkQuery ancestors x depth).deep (walkQuery ancestors x depth).include_all
      false = .ok (walkVerb ancestors) := validate_walk ancestors depth
  rw [navigate, hvalid]
  cases ancestors with
  | false =>
    show dependencies fuel graph .descendants (walkQuery false x depth) = _
    rw [dependencies_known hx rfl, hdepth]
    rfl
  | true =>
    show dependencies fuel graph .ancestors (walkQuery true x depth) = _
    rw [dependencies_known hx rfl, hdepth]
    rfl

/-- **A walk gives the jobs within its depth, but for its start.** -/
theorem relatives_answer (ancestors : Bool) (hx : x ∈ graph.nodes) (depth : Option Nat) :
    ∃ ms, Answers graph (walkQuery ancestors x depth) (.ok ms) ∧ (ms.map (·.name)).Nodup ∧
      ∀ z, z ∈ ms.map (·.name) ↔ z ≠ x ∧ ∃ n, Steps (Goes graph ancestors) n x z ∧ ∀ d ∈ depth, n ≤ d := by
  have hclosed : (rows graph ancestors).Closed := rows_closed
  obtain ⟨bound, tree, level, hsound, hwalk⟩ := walk_ends hclosed (rows_known hx) depth
  obtain ⟨hnodup, hnames⟩ := mem_matchesOf (tree.found.entries.map fun e => (e.1, e.2.2))
  refine ⟨_, ⟨bound, fun fuel hfuel => ?_⟩, hnodup, fun z => (hnames z).trans ?_⟩
  · rw [navigate_walk ancestors hx, hwalk fuel hfuel]
    rfl
  constructor
  · rintro ⟨e, he, hname⟩
    obtain ⟨⟨v, origin⟩, hmem, rfl⟩ := List.mem_map.mp he
    have hfound : tree.found.get? v ≠ none := by
      rw [Dict.get?_eq_some.mpr hmem]
      exact Option.some_ne_none _
    obtain ⟨hne, n, hsteps, hdepth⟩ := hsound.found_iff.mp hfound
    obtain ⟨y, rfl, hy⟩ := steps_rows.mp hsteps
    have hz : y = z := hname
    rw [← hz]
    exact ⟨fun heq => hne (congrArg (node · false) heq), n, hy, hdepth⟩
  · rintro ⟨hne, n, hsteps, hdepth⟩
    have hfound : tree.found.get? (node z false) ≠ none :=
      hsound.found_iff.mpr ⟨fun heq => hne (node_inj heq), n, steps_rows.mpr ⟨z, rfl, hsteps⟩, hdepth⟩
    obtain ⟨origin, horigin⟩ := Option.ne_none_iff_exists'.mp hfound
    exact ⟨_, List.mem_map.mpr ⟨(node z false, origin), Dict.get?_eq_some.mp horigin, rfl⟩, rfl⟩

/-! ## The path -/

/-- Jobs one after the other, each with exactly the atoms between it and the one before. -/
def Route (graph : DerivedGraph) : String → List Match → String → Prop
  | x, [], y => x = y
  | x, m :: rest, y => Feeds graph x m.name ∧ m.atom = joined (atomsBetween graph x m.name) ∧ Route graph m.name rest y

theorem route_of_trail : ∀ {way : List (Node × String)} {x : String},
    Trail (neighbors (rows graph false)) (node x false) way (node y false) →
    Route graph x (way.map fun e => ⟨e.1.name, e.2⟩) y
  | [], x, h => node_inj h
  | (v, l) :: way, x, ⟨hedge, htrail⟩ => by
    obtain ⟨hlinked, rfl⟩ := mem_neighbors.mp hedge
    obtain ⟨x', z, hx', rfl, hgoes⟩ := rows_linked.mp hlinked
    obtain rfl := node_inj hx'
    exact ⟨hgoes, congrArg joined (rows_atoms x z), route_of_trail htrail⟩

def pathQuery (job target : String) : Query := { verb := "path", job, target := some target }

/-- **The path is a shortest one, and there is one just when the job is reached.** -/
theorem path_answer (hx : x ∈ graph.nodes) (hy : y ∈ graph.nodes) :
    (∃ rest, Answers graph (pathQuery x y) (.ok (⟨x, ""⟩ :: rest)) ∧ Route graph x rest y ∧
      Steps (Feeds graph) rest.length x y ∧ ∀ n, Steps (Feeds graph) n x y → rest.length ≤ n) ∨
    Answers graph (pathQuery x y) (.error (.noPath x y)) ∧ ∀ n, ¬Steps (Feeds graph) n x y := by
  have hclosed : (rows graph false).Closed := rows_closed
  obtain ⟨bound, tree, level, hsound, hwalk⟩ := walk_ends hclosed (rows_known hx) none
  have hnavigate (fuel : Nat) : navigate fuel graph (pathQuery x y) =
      (walk fuel (rows graph false) (node x false) none).bind fun tree =>
        pathTo fuel (rows graph false) tree.found (node x false) x y := by
    have hvalid : validateQuery (pathQuery x y).verb (pathQuery x y).target (pathQuery x y).depth (pathQuery x y).deep
        (pathQuery x y).include_all false = .ok .path := rfl
    rw [navigate, hvalid]
    show dependencies fuel graph .path (pathQuery x y) = _
    rw [dependencies_known hx rfl]
    rfl
  have hsteps (n : Nat) : Steps (Edge (neighbors (rows graph false))) n (node x false) (node y false) ↔
      Steps (Feeds graph) n x y := by
    rw [steps_rows]
    constructor
    · rintro ⟨z, hz, h⟩
      exact node_inj hz ▸ h
    · exact fun h => ⟨y, rfl, h⟩
  by_cases hhas : tree.Has (node x false) (node y false)
  · obtain ⟨way, htrail, hlength, hback⟩ := backtrack_spec hsound hhas
    refine .inl ⟨way.map fun e => ⟨e.1.name, e.2⟩, ⟨max bound (level (node y false) + 1), fun fuel hfuel => ?_⟩,
      route_of_trail htrail, ?_, fun n hn => ?_⟩
    · rw [hnavigate, hwalk fuel (le_trans (le_max_left _ _) hfuel), Option.bind_some, pathTo, nodeOf_rows hy]
      show Option.map _ (backtrack tree.found (node x false) fuel (node y false) []) = _
      rw [hback fuel (le_trans (le_max_right _ _) hfuel), List.append_nil]
      rfl
    · rw [List.length_map, hlength]
      exact (hsteps _).mp (hsound.steps hhas)
    · rw [List.length_map, hlength]
      exact (hsound.least ((hsteps n).mpr hn) (by rintro _ ⟨⟩)).2
  · obtain ⟨hne, hfound⟩ := not_or.mp hhas
    refine .inr ⟨⟨max bound 1, fun fuel hfuel => ?_⟩, fun n hn => hhas (hsound.least ((hsteps n).mpr hn) (by rintro _ ⟨⟩)).1⟩
    obtain ⟨fuel', rfl⟩ := Nat.exists_eq_add_one_of_ne_zero (Nat.ne_of_gt (le_trans (le_max_right bound 1) hfuel))
    rw [hnavigate, hwalk _ (le_trans (le_max_left _ _) hfuel), Option.bind_some, pathTo, nodeOf_rows hy]
    show Option.map _ (backtrack tree.found (node x false) (fuel' + 1) (node y false) []) = _
    rw [backtrack_absent hne (not_not.mp hfound)]
    rfl

/-- **Ancestors are the converse of descendants, a path is a shortest one along the start gates, a walk
goes as far as its depth, and every query ends.** -/
theorem navigate_spec (graph : DerivedGraph) {x y : String} (hx : x ∈ graph.nodes) (hy : y ∈ graph.nodes) :
    (∀ depth : Option Nat, ∃ up down, Answers graph (walkQuery true x depth) (.ok up) ∧
      Answers graph (walkQuery false y depth) (.ok down) ∧ (y ∈ up.map (·.name) ↔ x ∈ down.map (·.name))) ∧
    ((∃ p, Answers graph (pathQuery x y) (.ok p)) ↔ Reaches (Feeds graph) x y) ∧
    (∀ p, Answers graph (pathQuery x y) (.ok p) → ∃ rest, p = ⟨x, ""⟩ :: rest ∧ Route graph x rest y ∧
      ∀ n, Steps (Feeds graph) n x y → rest.length ≤ n) ∧
    (∀ d : Nat, (∃ ms, Answers graph (walkQuery false x (some d)) (.ok ms) ∧ (ms.map (·.name)).Nodup ∧
        ∀ z, z ∈ ms.map (·.name) ↔ z ≠ x ∧ ∃ n ≤ d, Steps (Feeds graph) n x z) ∧
      ∃ ms, Answers graph (walkQuery true x (some d)) (.ok ms) ∧ (ms.map (·.name)).Nodup ∧
        ∀ z, z ∈ ms.map (·.name) ↔ z ≠ x ∧ ∃ n ≤ d, Steps (Feeds graph) n z x) ∧
    ∀ q, ∃ answer, Answers graph q answer := by
  have hback {n : Nat} {a b : String} : Steps (Goes graph true) n a b ↔ Steps (Feeds graph) n b a := steps_flip
  have hfront {n : Nat} {a b : String} : Steps (Goes graph false) n a b ↔ Steps (Feeds graph) n a b := Iff.rfl
  refine ⟨fun depth => ?_, ?_, fun p hp => ?_, fun d => ⟨?_, ?_⟩, query_ends graph⟩
  · obtain ⟨up, hup, -, hupNames⟩ := relatives_answer true hx depth
    obtain ⟨down, hdown, -, hdownNames⟩ := relatives_answer false hy depth
    refine ⟨up, down, hup, hdown, (hupNames y).trans (Iff.trans ?_ (hdownNames x).symm)⟩
    simp only [hback, hfront]
    exact and_congr_left fun _ => ne_comm
  · rw [Reaches, reaches_iff_steps]
    rcases path_answer hx hy with ⟨rest, hanswer, -, hsteps, -⟩ | ⟨hanswer, hnone⟩
    · exact ⟨fun _ => ⟨_, hsteps⟩, fun _ => ⟨_, hanswer⟩⟩
    · refine ⟨fun ⟨p, hp⟩ => ?_, fun ⟨n, hn⟩ => absurd hn (hnone n)⟩
      cases hp.unique hanswer
  · rcases path_answer hx hy with ⟨rest, hanswer, hroute, -, hleast⟩ | ⟨hanswer, -⟩
    · exact ⟨rest, Except.ok.inj (hp.unique hanswer), hroute, hleast⟩
    · cases hp.unique hanswer
  · obtain ⟨ms, hms, hnodup, hnames⟩ := relatives_answer false hx (some d)
    refine ⟨ms, hms, hnodup, fun z => (hnames z).trans (and_congr_right fun _ => exists_congr fun n => ?_)⟩
    simp only [hfront, Option.mem_some_iff, forall_eq', and_comm]
  · obtain ⟨ms, hms, hnodup, hnames⟩ := relatives_answer true hx (some d)
    refine ⟨ms, hms, hnodup, fun z => (hnames z).trans (and_congr_right fun _ => exists_congr fun n => ?_)⟩
    simp only [hback, Option.mem_some_iff, forall_eq', and_comm]

/-- The gate of a success. -/
def gateOf (src dst : String) : SourceEdge where
  dst := dst
  via := .success
  atom := .status ⟨⟨src, none⟩, .success, none⟩
  mapping_row := "M01"
  src := src
  node := .status ⟨src, none⟩ .success none none
  node_atom := rfl

/-- Two jobs in a circle, one of them with a gate on itself, and a third behind them. -/
def circle : DerivedGraph where
  nodes := ["a", "b", "c"]
  edges := [gateOf "a" "b", gateOf "b" "a", gateOf "b" "b", gateOf "b" "c"]

theorem navigate_spec_circle : (∃ p, Answers circle (pathQuery "a" "c") (.ok p)) ↔ Reaches (Feeds circle) "a" "c" :=
  (navigate_spec circle (by decide) (by decide)).2.1

example : navigate 9 circle (pathQuery "a" "c") = some (.ok [⟨"a", ""⟩, ⟨"b", "s(a)"⟩, ⟨"c", "s(b)"⟩]) := by
  decide +kernel

end Dsl41.Nav
