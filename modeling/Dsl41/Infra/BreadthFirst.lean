import Dsl41.Infra.Digraph
import Dsl41.Infra.Dict
import Dsl41.Infra.Queue
import Mathlib.Data.Finset.Card

/-!
# Breadth-first search

A search from a start over labelled edges, with or without a bound on the distance. It keeps, for each
node found, the node it was found from and the label of that edge.

* `Steps` — a path of a length
* `Tree.Sound` — what is found is what is near, each at its least distance, by an edge from one nearer
* `breadthFirst_sound`, `breadthFirst_ends` — the search gives such a tree
* `backtrack_spec` — the way back is a shortest path
-/

namespace Dsl41.Infra

/-! ## Paths of a length -/

section Steps

variable {ν : Type*} {r : ν → ν → Prop} {a b c : ν} {n m : Nat}

def Steps (r : ν → ν → Prop) : Nat → ν → ν → Prop
  | 0, a, b => a = b
  | n + 1, a, b => ∃ c, Steps r n a c ∧ r c b

theorem Steps.head (hr : r a b) : ∀ {n : Nat} {c : ν}, Steps r n b c → Steps r (n + 1) a c
  | 0, _, h => ⟨a, rfl, h ▸ hr⟩
  | _ + 1, _, ⟨d, h, hd⟩ => ⟨d, h.head hr, hd⟩

theorem Steps.flip : ∀ {n : Nat} {b : ν}, Steps r n a b → Steps (fun x y => r y x) n b a
  | 0, _, h => Eq.symm h
  | _ + 1, _, ⟨_, h, hr⟩ => Steps.head (r := fun x y => r y x) hr h.flip

theorem steps_flip : Steps (fun x y => r y x) n b a ↔ Steps r n a b := ⟨Steps.flip, Steps.flip⟩

theorem reaches_iff_steps : Relation.ReflTransGen r a b ↔ ∃ n, Steps r n a b := by
  constructor
  · intro h
    induction h with
    | refl => exact ⟨0, rfl⟩
    | tail _ hr ih =>
      obtain ⟨n, hn⟩ := ih
      exact ⟨n + 1, _, hn, hr⟩
  · rintro ⟨n, h⟩
    induction n generalizing b with
    | zero => exact h ▸ .refl
    | succ n ih =>
      obtain ⟨c, hc, hr⟩ := h
      exact (ih hc).tail hr

theorem Steps.congr {r' : ν → ν → Prop} (h : ∀ x y, r x y ↔ r' x y) : Steps r n a b ↔ Steps r' n a b := by
  have heq : r = r' := funext fun x => funext fun y => propext (h x y)
  rw [heq]

end Steps

/-! ## The search -/

/-- What is seen, and for each node found the node and the label it was found by. -/
structure Tree (ν α : Type) where
  seen : Finset ν
  found : Dict ν (ν × α)

variable {ν α : Type} [DecidableEq ν] (edges : ν → List (ν × α)) (depth : Option Nat) (start : ν)

/-- One edge of a node at a distance. -/
def look (current : ν) (distance : Nat) (s : Tree ν α × List (ν × Nat)) (edge : ν × α) : Tree ν α × List (ν × Nat) :=
  if edge.1 ∈ s.1.seen then s
  else (⟨insert edge.1 s.1.seen, s.1.found.set edge.1 (current, edge.2)⟩, s.2 ++ [(edge.1, distance + 1)])

/-- The turn of a node at a distance. -/
def expand (item : ν × Nat) (s : Tree ν α) : Tree ν α × List (ν × Nat) :=
  if depth.any (· ≤ item.2) then (s, []) else (edges item.1).foldl (look item.1 item.2) (s, [])

def breadthFirst (fuel : Nat) : Option (Tree ν α) := drain (expand edges depth) fuel ⟨{start}, ∅⟩ [(start, 0)]

/-! ## What it finds -/

/-- A node at a distance is one the search goes on from. -/
def Inner (depth : Option Nat) (n : Nat) : Prop := ∀ d ∈ depth, n < d

/-- The invariant, with the distance of each node seen. One node may be in its turn: what is said of the
nodes that had theirs is not said of it. -/
structure Searching (s : Tree ν α) (queue : List (ν × Nat)) (level : ν → Nat) (current : Option ν) : Prop where
  start_seen : start ∈ s.seen
  start_level : level start = 0
  seen_iff : ∀ v, v ∈ s.seen ↔ v = start ∨ s.found.get? v ≠ none
  start_absent : s.found.get? start = none
  parent : ∀ {v u l}, s.found.get? v = some (u, l) →
    u ∈ s.seen ∧ (v, l) ∈ edges u ∧ level v = level u + 1 ∧ Inner depth (level u)
  queued : ∀ item ∈ queue, item.1 ∈ s.seen ∧ level item.1 = item.2
  sorted : queue.Pairwise (·.2 ≤ ·.2)
  near : ∀ v ∈ s.seen, ∀ item ∈ queue, level v ≤ item.2 + 1
  done : ∀ u ∈ s.seen, u ∉ current → (∀ item ∈ queue, item.1 ≠ u) → Inner depth (level u) →
    ∀ edge ∈ edges u, edge.1 ∈ s.seen ∧ level edge.1 ≤ level u + 1

/-- The invariant within the turn of a node. -/
structure Turning (s : Tree ν α) (queue : List (ν × Nat)) (level : ν → Nat) (current : ν) (distance : Nat) : Prop
    extends Searching edges depth start s queue level (some current) where
  current_seen : current ∈ s.seen
  current_level : level current = distance
  inner : Inner depth distance
  low : ∀ item ∈ queue, distance ≤ item.2
  high : ∀ v ∈ s.seen, level v ≤ distance + 1

variable {edges depth start} {s : Tree ν α} {queue rest : List (ν × Nat)} {level : ν → Nat} {current : ν}
  {distance fuel : Nat} {v u : ν} {l : α}

theorem sound_start : Searching edges depth start ⟨{start}, ∅⟩ [(start, 0)] (fun _ => 0) none where
  start_seen := Finset.mem_singleton_self start
  start_level := rfl
  seen_iff v := by
    rw [Finset.mem_singleton]
    exact ⟨.inl, fun h => h.resolve_right fun hne => hne rfl⟩
  start_absent := rfl
  parent h := nomatch h
  queued item h := by
    rw [List.mem_singleton.mp h]
    exact ⟨Finset.mem_singleton_self start, rfl⟩
  sorted := List.pairwise_singleton _ _
  near _ _ _ _ := Nat.zero_le _
  done u hu _ hout _ := by
    have hstart : u = start := Finset.mem_singleton.mp hu
    exact absurd hstart.symm (hout _ (List.mem_singleton.mpr rfl))

/-- A node is taken from the front. -/
theorem Searching.turn (h : Searching edges depth start s ((current, distance) :: rest) level none)
    (hinner : Inner depth distance) : Turning edges depth start s rest level current distance where
  start_seen := h.start_seen
  start_level := h.start_level
  seen_iff := h.seen_iff
  start_absent := h.start_absent
  parent := h.parent
  queued item hitem := h.queued item (List.mem_cons_of_mem _ hitem)
  sorted := (List.pairwise_cons.mp h.sorted).2
  near v hv item hitem := h.near v hv item (List.mem_cons_of_mem _ hitem)
  done u hu hcurrent hout hu' := by
    refine h.done u hu (fun hnone => nomatch hnone) (fun item hitem => ?_) hu'
    rcases List.mem_cons.mp hitem with rfl | hitem
    · exact fun heq => hcurrent (congrArg some heq)
    · exact hout item hitem
  current_seen := (h.queued _ List.mem_cons_self).1
  current_level := (h.queued _ List.mem_cons_self).2
  inner := hinner
  low item hitem := (List.pairwise_cons.mp h.sorted).1 item hitem
  high v hv := h.near v hv _ List.mem_cons_self

/-- A node at the bound has its turn without a look at its edges. -/
theorem Searching.skip (h : Searching edges depth start s ((current, distance) :: rest) level none)
    (hinner : ¬Inner depth distance) : Searching edges depth start s rest level none where
  start_seen := h.start_seen
  start_level := h.start_level
  seen_iff := h.seen_iff
  start_absent := h.start_absent
  parent := h.parent
  queued item hitem := h.queued item (List.mem_cons_of_mem _ hitem)
  sorted := (List.pairwise_cons.mp h.sorted).2
  near v hv item hitem := h.near v hv item (List.mem_cons_of_mem _ hitem)
  done u hu hcurrent hout hu' := by
    refine h.done u hu hcurrent (fun item hitem => ?_) hu'
    rcases List.mem_cons.mp hitem with rfl | hitem
    · rintro rfl
      have hlevel : level current = distance := (h.queued _ List.mem_cons_self).2
      rw [hlevel] at hu'
      exact hinner hu'
    · exact hout item hitem

/-- One edge: the node is seen, and if it was not before it is one further than the one in its turn. -/
theorem Turning.look {new : List (ν × Nat)} {edge : ν × α}
    (h : Turning edges depth start s (rest ++ new) level current distance) (hedge : edge ∈ edges current) :
    ∃ level', Turning edges depth start (look current distance (s, new) edge).1
        (rest ++ (look current distance (s, new) edge).2) level' current distance ∧
      edge.1 ∈ (look current distance (s, new) edge).1.seen ∧
      s.seen ⊆ (look current distance (s, new) edge).1.seen := by
  obtain ⟨w, l⟩ := edge
  unfold Infra.look
  split
  · next hseen => exact ⟨level, h, hseen, Finset.Subset.refl _⟩
  · next hnew =>
    have hold (x : ν) (hx : x ∈ s.seen) : Function.update level w (distance + 1) x = level x := by
      refine Function.update_of_ne (fun heq => hnew ?_) _ _
      rw [← heq]
      exact hx
    have hnewLevel : Function.update level w (distance + 1) w = distance + 1 := Function.update_self ..
    have hwstart : w ≠ start := fun heq => hnew (heq ▸ h.start_seen)
    refine ⟨Function.update level w (distance + 1), ?_, Finset.mem_insert_self _ _, Finset.subset_insert _ _⟩
    refine {
      start_seen := Finset.mem_insert_of_mem h.start_seen
      start_level := (hold start h.start_seen).trans h.start_level
      current_seen := Finset.mem_insert_of_mem h.current_seen
      current_level := (hold current h.current_seen).trans h.current_level
      inner := h.inner
      seen_iff := fun x => ?_
      start_absent := ?_
      parent := fun {x u l'} hx => ?_
      queued := fun item hitem => ?_
      sorted := ?_
      near := fun x hx item hitem => ?_
      done := fun u hu hcurrent hout hinner edge hedge => ?_
      low := fun item hitem => ?_
      high := fun x hx => ?_ }
    · rw [Finset.mem_insert, Dict.get?_set, h.seen_iff]
      split
      · next heq => simp [heq]
      · next hne => simp [hne]
    · rw [Dict.get?_set, if_neg (Ne.symm hwstart)]
      exact h.start_absent
    · rw [Dict.get?_set] at hx
      split at hx
      · next heq =>
        cases hx
        rw [heq, hnewLevel, hold _ h.current_seen, h.current_level]
        exact ⟨Finset.mem_insert_of_mem h.current_seen, hedge, rfl, h.inner⟩
      · next hne =>
        obtain ⟨hu, hmem, hlevel, hinner⟩ := h.parent hx
        have hxseen : x ∈ s.seen := (h.seen_iff x).mpr (.inr (by rw [hx]; exact Option.some_ne_none _))
        rw [hold x hxseen, hold u hu]
        exact ⟨Finset.mem_insert_of_mem hu, hmem, hlevel, hinner⟩
    · rw [← List.append_assoc] at hitem
      rcases List.mem_append.mp hitem with hitem | hitem
      · obtain ⟨hseen, hlevel⟩ := h.queued item hitem
        exact ⟨Finset.mem_insert_of_mem hseen, (hold _ hseen).trans hlevel⟩
      · rw [List.mem_singleton.mp hitem]
        exact ⟨Finset.mem_insert_self _ _, hnewLevel⟩
    · rw [← List.append_assoc, List.pairwise_append]
      refine ⟨h.sorted, List.pairwise_singleton _ _, fun item hitem item' hitem' => ?_⟩
      rw [List.mem_singleton.mp hitem', ← (h.queued item hitem).2]
      exact h.high _ (h.queued item hitem).1
    · rw [← List.append_assoc] at hitem
      have hlow : distance ≤ item.2 := by
        rcases List.mem_append.mp hitem with hitem | hitem
        · exact h.low item hitem
        · rw [List.mem_singleton.mp hitem]
          exact Nat.le_succ _
      rcases Finset.mem_insert.mp hx with rfl | hx
      · rw [hnewLevel]
        exact Nat.succ_le_succ hlow
      · rw [hold x hx]
        exact (h.high x hx).trans (Nat.succ_le_succ hlow)
    · have hout' : ∀ item ∈ rest ++ new, item.1 ≠ u := fun item hitem =>
        hout item (by rw [← List.append_assoc]; exact List.mem_append_left _ hitem)
      rcases Finset.mem_insert.mp hu with rfl | hu
      · exact absurd rfl (hout (u, distance + 1) (by simp))
      · rw [hold u hu] at hinner ⊢
        obtain ⟨hseen, hle⟩ := h.done u hu hcurrent hout' hinner edge hedge
        rw [hold _ hseen]
        exact ⟨Finset.mem_insert_of_mem hseen, hle⟩
    · rw [← List.append_assoc] at hitem
      rcases List.mem_append.mp hitem with hitem | hitem
      · exact h.low item hitem
      · rw [List.mem_singleton.mp hitem]
        exact Nat.le_succ _
    · rcases Finset.mem_insert.mp hx with rfl | hx
      · rw [hnewLevel]
      · rw [hold x hx]
        exact h.high x hx

theorem Turning.fold : ∀ {es : List (ν × α)} {s : Tree ν α} {new : List (ν × Nat)} {level : ν → Nat},
    Turning edges depth start s (rest ++ new) level current distance → (∀ e ∈ es, e ∈ edges current) →
    ∃ level', Turning edges depth start (es.foldl (Infra.look current distance) (s, new)).1
        (rest ++ (es.foldl (Infra.look current distance) (s, new)).2) level' current distance ∧
      (∀ e ∈ es, e.1 ∈ (es.foldl (Infra.look current distance) (s, new)).1.seen) ∧
      s.seen ⊆ (es.foldl (Infra.look current distance) (s, new)).1.seen
  | [], s, new, level, h, _ => ⟨level, h, nofun, Finset.Subset.refl _⟩
  | e :: es, s, new, level, h, hes => by
    obtain ⟨level₁, h₁, hseen, hsub⟩ := h.look (hes e List.mem_cons_self)
    obtain ⟨level₂, h₂, hall, hsub'⟩ := h₁.fold fun e' he' => hes e' (List.mem_cons_of_mem _ he')
    refine ⟨level₂, h₂, fun e' he' => ?_, hsub.trans hsub'⟩
    rcases List.mem_cons.mp he' with rfl | he'
    · exact hsub' hseen
    · exact hall e' he'

/-- The end of a turn: all the node's edges were looked at. -/
theorem Turning.finish (h : Turning edges depth start s queue level current distance)
    (hall : ∀ e ∈ edges current, e.1 ∈ s.seen) : Searching edges depth start s queue level none where
  start_seen := h.start_seen
  start_level := h.start_level
  seen_iff := h.seen_iff
  start_absent := h.start_absent
  parent := h.parent
  queued := h.queued
  sorted := h.sorted
  near := h.near
  done u hu _ hout hinner edge hedge := by
    by_cases hcurrent : u = current
    · subst hcurrent
      refine ⟨hall edge hedge, ?_⟩
      rw [h.current_level]
      exact h.high _ (hall edge hedge)
    · exact h.done u hu (fun heq => hcurrent (Option.some.inj heq).symm) hout hinner edge hedge

theorem inner_iff : Inner depth distance ↔ ¬depth.any (· ≤ distance) := by
  cases depth with
  | none => simp [Inner]
  | some d => simp [Inner]

theorem Searching.expand {item : ν × Nat} (h : ∃ level, Searching edges depth start s (item :: rest) level none) :
    ∃ level, Searching edges depth start (expand edges depth item s).1 (rest ++ (expand edges depth item s).2) level
      none := by
  obtain ⟨level, h⟩ := h
  obtain ⟨current, distance⟩ := item
  unfold Infra.expand
  split
  · next hbound =>
    rw [List.append_nil]
    exact ⟨level, h.skip fun hinner => inner_iff.mp hinner hbound⟩
  · next hbound =>
    have hturn := h.turn (inner_iff.mpr hbound)
    rw [← List.append_nil rest] at hturn
    obtain ⟨level', hturn', hall, -⟩ := hturn.fold fun _ he => he
    exact ⟨level', hturn'.finish hall⟩

/-! ## The tree it gives -/

def Edge (edges : ν → List (ν × α)) (u v : ν) : Prop := ∃ l, (v, l) ∈ edges u

/-- The start, or a node found. -/
def Tree.Has (t : Tree ν α) (start v : ν) : Prop := v = start ∨ t.found.get? v ≠ none

/-- What is in the tree is what is near, each node at its least distance. -/
structure Tree.Sound (t : Tree ν α) (edges : ν → List (ν × α)) (depth : Option Nat) (start : ν) (level : ν → Nat) :
    Prop where
  start_absent : t.found.get? start = none
  parent : ∀ {v u l}, t.found.get? v = some (u, l) → t.Has start u ∧ (v, l) ∈ edges u ∧ level v = level u + 1
  steps : ∀ {v}, t.Has start v → Steps (Edge edges) (level v) start v
  within : ∀ {v}, t.Has start v → ∀ d ∈ depth, level v ≤ d
  least : ∀ {n v}, Steps (Edge edges) n start v → (∀ d ∈ depth, n ≤ d) → t.Has start v ∧ level v ≤ n

theorem Searching.within (h : Searching edges depth start s queue level none) (hv : v ∈ s.seen) :
    ∀ d ∈ depth, level v ≤ d := by
  intro d hd
  rcases (h.seen_iff v).mp hv with rfl | hfound
  · rw [h.start_level]
    exact Nat.zero_le d
  · obtain ⟨⟨u, l⟩, hu⟩ := Option.ne_none_iff_exists'.mp hfound
    obtain ⟨-, -, hlevel, hinner⟩ := h.parent hu
    rw [hlevel]
    exact hinner d hd

theorem Searching.steps (h : Searching edges depth start s queue level none) : ∀ n v, v ∈ s.seen → level v = n →
    Steps (Edge edges) n start v := by
  intro n
  induction n with
  | zero =>
    intro v hv hlevel
    rcases (h.seen_iff v).mp hv with rfl | hfound
    · rfl
    · obtain ⟨⟨u, l⟩, hu⟩ := Option.ne_none_iff_exists'.mp hfound
      have hnext := (h.parent hu).2.2.1
      omega
  | succ n ih =>
    intro v hv hlevel
    rcases (h.seen_iff v).mp hv with rfl | hfound
    · rw [h.start_level] at hlevel
      cases hlevel
    · obtain ⟨⟨u, l⟩, hu⟩ := Option.ne_none_iff_exists'.mp hfound
      obtain ⟨hseen, hedge, hnext, -⟩ := h.parent hu
      exact ⟨u, ih u hseen (by omega), l, hedge⟩

/-- With an empty queue every node seen had its turn. -/
theorem Searching.least (h : Searching edges depth start s [] level none) : ∀ n v, Steps (Edge edges) n start v →
    (∀ d ∈ depth, n ≤ d) → v ∈ s.seen ∧ level v ≤ n := by
  intro n
  induction n with
  | zero =>
    rintro v rfl -
    exact ⟨h.start_seen, h.start_level.le⟩
  | succ n ih =>
    rintro v ⟨u, hu, l, hedge⟩ hdepth
    obtain ⟨hseen, hle⟩ := ih u hu fun d hd => (Nat.le_succ n).trans (hdepth d hd)
    have hinner : Inner depth (level u) := fun d hd => hle.trans_lt (hdepth d hd)
    obtain ⟨hv, hlevel⟩ := h.done u hseen (fun hnone => nomatch hnone) nofun hinner _ hedge
    exact ⟨hv, hlevel.trans (Nat.succ_le_succ hle)⟩

/-- **The search finds what is near, by its shortest paths.** -/
theorem breadthFirst_sound {t : Tree ν α} (h : breadthFirst edges depth start fuel = some t) :
    ∃ level, t.Sound edges depth start level := by
  obtain ⟨level, hdone⟩ := drain_run
    (P := fun s queue => ∃ level, Searching edges depth start s queue level none)
    (fun s item queue hs => Searching.expand hs) ⟨_, sound_start⟩ h
  refine ⟨level, {
    start_absent := hdone.start_absent
    parent := fun hv => ?_
    steps := fun {v} hv => hdone.steps _ v ((hdone.seen_iff v).mpr hv) rfl
    within := fun {v} hv => hdone.within ((hdone.seen_iff v).mpr hv)
    least := fun {n v} hsteps hdepth => ?_ }⟩
  · obtain ⟨hu, hedge, hlevel, -⟩ := hdone.parent hv
    exact ⟨(hdone.seen_iff _).mp hu, hedge, hlevel⟩
  · obtain ⟨hseen, hle⟩ := hdone.least n v hsteps hdepth
    exact ⟨(hdone.seen_iff v).mp hseen, hle⟩

/-- What is found is what is near, but for the start. -/
theorem Tree.Sound.found_iff {t : Tree ν α} (h : t.Sound edges depth start level) :
    t.found.get? v ≠ none ↔ v ≠ start ∧ ∃ n, Steps (Edge edges) n start v ∧ ∀ d ∈ depth, n ≤ d := by
  constructor
  · intro hfound
    refine ⟨?_, level v, h.steps (.inr hfound), h.within (.inr hfound)⟩
    rintro rfl
    exact hfound h.start_absent
  · rintro ⟨hne, n, hsteps, hdepth⟩
    exact (h.least hsteps hdepth).1.resolve_left hne

/-! ## The end of the search -/

section Ends

variable {U : Finset ν}

variable (current distance) in
theorem look_measure {edge : ν × α} {p : Tree ν α × List (ν × Nat)} (hU : edge.1 ∈ U) (hseen : p.1.seen ⊆ U) :
    (look current distance p edge).1.seen ⊆ U ∧
      (U \ (look current distance p edge).1.seen).card + (look current distance p edge).2.length ≤
        (U \ p.1.seen).card + p.2.length := by
  unfold look
  split
  · exact ⟨hseen, le_rfl⟩
  · next hnew =>
    have hless : (U \ insert edge.1 p.1.seen).card < (U \ p.1.seen).card := by
      rw [Finset.sdiff_insert]
      exact Finset.card_erase_lt_of_mem (Finset.mem_sdiff.mpr ⟨hU, hnew⟩)
    refine ⟨Finset.insert_subset hU hseen, ?_⟩
    rw [List.length_append, List.length_singleton]
    dsimp only
    omega

theorem fold_measure : ∀ {es : List (ν × α)} {p : Tree ν α × List (ν × Nat)}, (∀ e ∈ es, e.1 ∈ U) → p.1.seen ⊆ U →
    (es.foldl (look current distance) p).1.seen ⊆ U ∧
      (U \ (es.foldl (look current distance) p).1.seen).card + (es.foldl (look current distance) p).2.length ≤
        (U \ p.1.seen).card + p.2.length
  | [], _, _, hseen => ⟨hseen, le_rfl⟩
  | e :: es, p, hes, hseen => by
    have hlook := look_measure current distance (hes e List.mem_cons_self) hseen
    obtain ⟨hseen', hle⟩ := fold_measure (fun e' he' => hes e' (List.mem_cons_of_mem _ he')) hlook.1
    exact ⟨hseen', hle.trans hlook.2⟩

/-- **A fuel above the number of the nodes lasts, whatever circles the edges make.** -/
theorem breadthFirst_ends (hstart : start ∈ U) (hclosed : ∀ u ∈ U, ∀ e ∈ edges u, e.1 ∈ U) (hfuel : U.card < fuel) :
    ∃ t, breadthFirst edges depth start fuel = some t := by
  have hturn (s : Tree ν α) (item : ν × Nat) (queue : List (ν × Nat))
      (h : s.seen ⊆ U ∧ ∃ level, Searching edges depth start s (item :: queue) level none) :
      (expand edges depth item s).1.seen ⊆ U ∧
        (U \ (expand edges depth item s).1.seen).card + (expand edges depth item s).2.length ≤ (U \ s.seen).card := by
    obtain ⟨hsub, level, hs⟩ := h
    unfold expand
    split
    · exact ⟨hsub, le_rfl⟩
    · have hitem : item.1 ∈ U := hsub (hs.queued item List.mem_cons_self).1
      exact fold_measure (p := (s, [])) (fun e he => hclosed _ hitem e he) hsub
  refine drain_ends (P := fun s queue => s.seen ⊆ U ∧ ∃ level, Searching edges depth start s queue level none)
    (m := fun s => (U \ s.seen).card) (fun s item queue h => ⟨(hturn s item queue h).1, Searching.expand h.2⟩)
    (fun s item queue h => (hturn s item queue h).2)
    ⟨Finset.singleton_subset_iff.mpr hstart, _, sound_start⟩ ?_
  have hcard : (U \ {start}).card < U.card := by
    rw [← Finset.erase_eq]
    exact Finset.card_erase_lt_of_mem hstart
  rw [List.length_singleton]
  dsimp only
  omega

end Ends

/-! ## The way back -/

/-- The edges from the start to a node, each with the node it leads to; the inner none is for a node that
was not found, the outer one for fuel that does not last. -/
def backtrack (found : Dict ν (ν × α)) (start : ν) : Nat → ν → List (ν × α) → Option (Option (List (ν × α)))
  | 0, _, _ => none
  | fuel + 1, current, path =>
    if current = start then some (some path)
    else
      match found.get? current with
      | none => some none
      | some (previous, label) => backtrack found start fuel previous ((current, label) :: path)

/-- Edges one after the other. -/
def Trail (edges : ν → List (ν × α)) : ν → List (ν × α) → ν → Prop
  | a, [], b => a = b
  | a, e :: path, b => e ∈ edges a ∧ Trail edges e.1 path b

omit [DecidableEq ν] in
theorem Trail.snoc : ∀ {path : List (ν × α)} {a : ν}, Trail edges a path u → (v, l) ∈ edges u →
    Trail edges a (path ++ [(v, l)]) v
  | [], _, h, hedge => ⟨by rwa [show _ = u from h], rfl⟩
  | _ :: _, _, h, hedge => ⟨h.1, h.2.snoc hedge⟩

/-- **The way back from a node found is a shortest path.** -/
theorem backtrack_spec {t : Tree ν α} (h : t.Sound edges depth start level) (hv : t.Has start v) :
    ∃ way, Trail edges start way v ∧ way.length = level v ∧
      ∀ fuel > level v, ∀ path, backtrack t.found start fuel v path = some (some (way ++ path)) := by
  induction hn : level v generalizing v with
  | zero =>
    have hstart : v = start := by
      by_contra hne
      obtain ⟨⟨u, l⟩, hu⟩ := Option.ne_none_iff_exists'.mp (hv.resolve_left hne)
      have hlevel := (h.parent hu).2.2
      omega
    refine ⟨[], hstart.symm, rfl, fun fuel hfuel path => ?_⟩
    obtain ⟨fuel, rfl⟩ := Nat.exists_eq_add_one_of_ne_zero hfuel.ne'
    rw [backtrack, if_pos hstart, List.nil_append]
  | succ n ih =>
    have hne : v ≠ start := by
      rintro rfl
      have hle : level v ≤ 0 := (h.least (n := 0) rfl fun _ _ => Nat.zero_le _).2
      omega
    obtain ⟨⟨u, l⟩, hu⟩ := Option.ne_none_iff_exists'.mp (hv.resolve_left hne)
    obtain ⟨hhas, hedge, hlevel⟩ := h.parent hu
    obtain ⟨way, htrail, hlength, hback⟩ := ih hhas (by omega)
    refine ⟨way ++ [(v, l)], htrail.snoc hedge, ?_, fun fuel hfuel path => ?_⟩
    · rw [List.length_append, List.length_singleton, hlength]
    · obtain ⟨fuel, rfl⟩ := Nat.exists_eq_add_one_of_ne_zero (Nat.ne_of_gt (Nat.lt_of_le_of_lt (Nat.zero_le _) hfuel))
      rw [backtrack, if_neg hne, hu, List.append_assoc]
      exact hback fuel (by omega) _

theorem backtrack_absent {found : Dict ν (ν × α)} {path : List (ν × α)} (hne : v ≠ start) (h : found.get? v = none) :
    backtrack found start (fuel + 1) v path = some none := by
  rw [backtrack, if_neg hne, h]

end Dsl41.Infra
