import Mathlib.Algebra.Order.BigOperators.Group.Finset
import Mathlib.Tactic.Ring
import Dsl41.Derive.Cycles

/-!
# What the search for cycles finds

`Sound` is what holds between two turns of the search: the links of the nodes on the stack, what
the frames have looked at, and the components already popped. Each part of a turn keeps it
(`Sound.advance`, `Sound.meet`, `Sound.relink`, `Sound.retire`, `Sound.pop`), a turn uses up one
unit of what is `owed`, and `cycles_spec` reads the result off the end of the search.
-/

namespace Dsl41.Derive

open Infra

variable {ν : Type} [LinearOrder ν] {succs : Dict ν (Finset ν)} {nodes : List ν} {s s' : Search ν} {u v w : ν}

/-- `b in succs[a]`. -/
def Succ (succs : Dict ν (Finset ν)) (a b : ν) : Prop := ∃ c, succs.get? a = some c ∧ b ∈ c

/-- The map is defined on the nodes, with successors among them. -/
def Defined (succs : Dict ν (Finset ν)) (nodes : List ν) : Prop :=
  ∀ v ∈ nodes, ∃ c, succs.get? v = some c ∧ ∀ w ∈ c, w ∈ nodes

/-- A strongly connected component with more than one node or one node that succeeds itself, as a
sorted list. -/
def IsCycle (succs : Dict ν (Finset ν)) (nodes l : List ν) : Prop :=
  l.SortedLT ∧ ∃ v ∈ nodes, (∀ w, w ∈ l ↔ Mutual (Succ succs) v w) ∧ (1 < l.length ∨ Succ succs v v)

namespace Search

def num (s : Search ν) (v : ν) : Nat := (s.index.get? v).getD 0

def link (s : Search ν) (v : ν) : Nat := (s.low.get? v).getD 0

def Met (s : Search ν) (v : ν) : Prop := s.index.get? v ≠ none

/-- The nodes of the frames, the one in hand first. -/
def path (s : Search ν) : List ν := s.work.map (·.node)

/-- The edge to `w` has had its part in the link of `u`. -/
structure Looked (s : Search ν) (u w : ν) : Prop where
  met : s.Met w
  low : w ∈ s.stack → s.link u ≤ s.num w

/-- Each frame has looked at the children before its place, but for the one it waits for. -/
def Framed (succs : Dict ν (Finset ν)) (s : Search ν) : Option ν → List (Frame ν) → Prop
  | _, [] => True
  | above, f :: rest =>
    (∃ c, succs.get? f.node = some c ∧ f.children = sorted c) ∧
      (∀ w ∈ f.children.take f.child_i, some w = above ∨ s.Looked f.node w) ∧ Framed succs s (some f.node) rest

/-- What holds between two turns; `above` is the child the top frame waits for. -/
structure Sound (succs : Dict ν (Finset ν)) (nodes : List ν) (above : Option ν) (s : Search ν) : Prop where
  same : ∀ v, s.low.get? v = none ↔ s.index.get? v = none
  numbered : ∀ v i, s.index.get? v = some i → v ∈ nodes ∧ i < s.counter
  on : ∀ v, v ∈ s.on_stack ↔ v ∈ s.stack
  stacked : ∀ v ∈ s.stack, s.Met v
  ordered : s.stack.Pairwise fun a b => s.num b < s.num a
  frames : s.path.Sublist s.stack
  framed : s.Framed succs above s.work
  paths : ∀ a ∈ s.path, ∀ u ∈ s.stack, s.num a ≤ s.num u → Reaches (Succ succs) a u
  link_le : ∀ u ∈ s.stack, s.link u ≤ s.num u
  witness : ∀ u ∈ s.stack, ∃ w ∈ s.stack, s.num w = s.link u ∧ Reaches (Succ succs) u w
  /-- A node whose frame is gone has looked at every successor, and is no root. -/
  ended : ∀ u ∈ s.stack, u ∉ s.path → s.link u < s.num u ∧ ∀ w, Succ succs u w → s.Looked u w
  /-- The innermost frame around a node has no greater link. -/
  inner : ∀ u ∈ s.stack, ∃ a ∈ s.path, s.num a ≤ s.num u ∧ s.link a ≤ s.link u ∧
    ∀ b ∈ s.path, s.num b ≤ s.num u → s.num b ≤ s.num a
  closed : ∀ v, s.Met v → v ∉ s.stack → ∀ w, Succ succs v w → s.Met w ∧ w ∉ s.stack
  found : ∀ l, l ∈ s.result ↔ IsCycle succs nodes l ∧ ∀ a ∈ l, s.Met a ∧ a ∉ s.stack
  once : s.result.Nodup

/-! ## Small facts -/

theorem Met.num (h : s.Met v) : s.index.get? v = some (s.num v) := by
  obtain ⟨i, hi⟩ := Option.ne_none_iff_exists'.mp h
  rw [Search.num, hi]
  rfl

theorem Sound.linked {above : Option ν} (h : s.Sound succs nodes above) (hv : s.Met v) :
    s.low.get? v = some (s.link v) := by
  obtain ⟨i, hi⟩ := Option.ne_none_iff_exists'.mp (mt (h.same v).mp hv)
  rw [link, hi]
  rfl

theorem Sound.num_lt {above : Option ν} (h : s.Sound succs nodes above) (hv : s.Met v) : s.num v < s.counter :=
  (h.numbered v _ hv.num).2

theorem num_inj (h : s.stack.Pairwise fun a b => s.num b < s.num a) (hu : u ∈ s.stack) (hv : v ∈ s.stack)
    (heq : s.num u = s.num v) : u = v :=
  List.Pairwise.forall_of_forall_of_flip (R := fun a b => s.num a = s.num b → a = b) (fun _ _ _ => rfl)
    (h.imp fun hlt heq => absurd heq hlt.ne') (h.imp fun hlt heq => absurd heq hlt.ne) hu hv heq

variable {above : Option ν} {f : Frame ν} {rest : List (Frame ν)}

omit [LinearOrder ν] in
theorem path_cons (hwork : s.work = f :: rest) : s.path = f.node :: rest.map (·.node) := by
  rw [path, hwork]
  rfl

/-- The frames below the top one were met before it. -/
theorem Sound.below (h : s.Sound succs nodes above) (hwork : s.work = f :: rest) (ha : a ∈ s.path) :
    a = f.node ∨ s.num a < s.num f.node := by
  have hpath : s.path.Pairwise fun a b => s.num b < s.num a := h.ordered.sublist h.frames
  rw [path_cons hwork] at ha hpath
  exact (List.mem_cons.mp ha).imp_right ((List.pairwise_cons.mp hpath).1 a)

/-- The top frame is the innermost one around every node from it on. -/
theorem Sound.link_top (h : s.Sound succs nodes above) (hwork : s.work = f :: rest) (hu : u ∈ s.stack)
    (hle : s.num f.node ≤ s.num u) : s.link f.node ≤ s.link u := by
  obtain ⟨a, ha, -, hlink, hmax⟩ := h.inner u hu
  have hf : f.node ∈ s.path := path_cons hwork ▸ List.mem_cons_self
  have hfa : s.num f.node ≤ s.num a := hmax _ hf hle
  rcases h.below hwork ha with rfl | hlt
  · exact hlink
  · exact absurd hlt (not_lt_of_ge hfa)

theorem Looked.mono (h : s.Looked u w) (hmet : s'.Met w) (hstack : w ∈ s'.stack → w ∈ s.stack)
    (hlink : s'.link u ≤ s.link u) (hnum : s.num w ≤ s'.num w) : s'.Looked u w where
  met := hmet
  low := fun hw => hlink.trans ((h.low (hstack hw)).trans hnum)

/-- The frames' part under a change of the state that keeps what they have looked at. -/
theorem Framed.mono : ∀ {work : List (Frame ν)} {above : Option ν},
    (∀ f ∈ work, ∀ w, s.Looked f.node w → s'.Looked f.node w) → s.Framed succs above work →
    s'.Framed succs above work
  | [], _, _, _ => trivial
  | f :: _, _, hlooked, ⟨hchildren, htaken, hrest⟩ =>
    ⟨hchildren, fun w hw => (htaken w hw).imp_right (hlooked f List.mem_cons_self w),
      hrest.mono fun g hg => hlooked g (List.mem_cons_of_mem _ hg)⟩

/-- Other frames of the same nodes. -/
theorem Sound.rework {work : List (Frame ν)} {next : Option ν} (h : s.Sound succs nodes above)
    (hpath : work.map (·.node) = s.path) (hframed : s.Framed succs next work) :
    Sound succs nodes next { s with work } := by
  have hpath' : ({ s with work } : Search ν).path = s.path := hpath
  have hlooked : ∀ u w, s.Looked u w → ({ s with work } : Search ν).Looked u w := fun u w hw => ⟨hw.met, hw.low⟩
  have hframed' : ({ s with work } : Search ν).Framed succs next work := hframed.mono fun f _ => hlooked f.node
  exact
    { same := h.same
      numbered := h.numbered
      on := h.on
      stacked := h.stacked
      ordered := h.ordered
      frames := hpath' ▸ h.frames
      framed := hframed'
      paths := hpath' ▸ h.paths
      link_le := h.link_le
      witness := h.witness
      ended := fun u hu hout =>
        (h.ended u hu (hpath' ▸ hout)).imp_right fun hall w hw => hlooked u w (hall w hw)
      inner := hpath' ▸ h.inner
      closed := h.closed
      found := h.found
      once := h.once }

/-! ## Looking at a child -/

/-- The top frame goes on to its next child and waits for it. -/
theorem Sound.advance {child : ν} (h : s.Sound succs nodes none) (hwork : s.work = f :: rest)
    (hchild : f.children[f.child_i]? = some child) :
    Sound succs nodes (some child) { s with work := { f with child_i := f.child_i + 1 } :: rest } := by
  obtain ⟨hchildren, htaken, hrest⟩ : s.Framed succs none (f :: rest) := hwork ▸ h.framed
  refine h.rework (path_cons hwork).symm ⟨hchildren, fun w hw => ?_, hrest⟩
  rw [List.take_add_one, hchild, List.mem_append] at hw
  rcases hw with hw | hw
  · exact .inr ((htaken w hw).resolve_left (by simp))
  · exact .inl (by rw [List.mem_singleton.mp hw])

/-- The child the top frame waits for has been looked at. -/
theorem Sound.arrive {child : ν} (h : s.Sound succs nodes (some child)) (hwork : s.work = f :: rest)
    (hlooked : s.Looked f.node child) : s.Sound succs nodes none := by
  obtain ⟨hchildren, htaken, hrest⟩ : s.Framed succs (some child) (f :: rest) := hwork ▸ h.framed
  have hframed : s.Framed succs none s.work := by
    rw [hwork]
    refine ⟨hchildren, fun w hw => .inr ?_, hrest⟩
    rcases htaken w hw with heq | hw
    · rwa [Option.some.inj heq]
    · exact hw
  exact { h with framed := hframed }

/-- A lower link of a frame's node, to a node of the stack that it reaches. -/
theorem Sound.relink {m : Nat} (h : s.Sound succs nodes above) (hv : v ∈ s.path) (hm : m ≤ s.link v)
    (hwitness : ∃ w ∈ s.stack, s.num w = m ∧ Reaches (Succ succs) v w) :
    Sound succs nodes above { s with low := s.low.set v m } := by
  have hstack : v ∈ s.stack := h.frames.subset hv
  have hlink : ∀ u, link { s with low := s.low.set v m } u = if u = v then m else s.link u := by
    intro u
    simp only [link, Dict.get?_set]
    split <;> rfl
  have hle : ∀ u, link { s with low := s.low.set v m } u ≤ s.link u := by
    intro u
    rw [hlink]
    split
    · next heq => exact heq ▸ hm
    · exact le_rfl
  have hlooked : ∀ u w, s.Looked u w → Looked { s with low := s.low.set v m } u w := fun u w h' =>
    h'.mono h'.met id (hle u) le_rfl
  exact
    { h with
      same := fun u => by
        rw [Dict.get?_set]
        split
        · next heq =>
          have hmet := h.stacked v hstack
          simp only [reduceCtorEq, false_iff, heq]
          exact hmet
        · exact h.same u
      framed := h.framed.mono fun f _ w => hlooked _ w
      link_le := fun u hu => (hle u).trans (h.link_le u hu)
      witness := fun u hu => by
        rw [hlink]
        split
        · next heq => exact heq ▸ hwitness
        · exact h.witness u hu
      ended := fun u hu hout => by
        obtain ⟨hlt, hall⟩ := h.ended u hu hout
        exact ⟨(hle u).trans_lt hlt, fun w hw => hlooked u w (hall w hw)⟩
      inner := fun u hu => by
        by_cases heq : u = v
        · exact ⟨v, hv, (congrArg s.num heq).ge, (congrArg _ heq).ge, fun b _ hb => heq ▸ hb⟩
        · obtain ⟨a, ha, hnum, hle', hmax⟩ := h.inner u hu
          refine ⟨a, ha, hnum, ?_, hmax⟩
          rw [hlink u, if_neg heq]
          exact (hle a).trans hle' }

/-- A node that is met for the first time gets the frame in hand. -/
theorem Sound.meet {child : ν} {c : Finset ν} (h : s.Sound succs nodes (some child))
    (hnew : s.index.get? child = none) (hnode : child ∈ nodes) (hc : succs.get? child = some c)
    (hreach : ∀ a ∈ s.path, Reaches (Succ succs) a child) :
    ∃ s', s.meet succs child = .ok s' ∧ s'.Sound succs nodes none ∧
      s'.work = { node := child, children := sorted c, child_i := 0 } :: s.work ∧
      s'.index = s.index.set child s.counter := by
  let met : Search ν := { s with
    index := s.index.set child s.counter
    low := s.low.set child s.counter
    counter := s.counter + 1
    stack := child :: s.stack
    on_stack := insert child s.on_stack
    work := { node := child, children := sorted c, child_i := 0 } :: s.work }
  have hmeet : s.meet succs child = .ok met := by
    rw [Search.meet, item, hc]
    rfl
  have hne : ∀ u, s.Met u → u ≠ child := fun u hu heq => hu (heq ▸ hnew)
  have hmet : ∀ u, met.Met u ↔ u = child ∨ s.Met u := by
    intro u
    show (s.index.set child s.counter).get? u ≠ none ↔ _
    rw [Dict.get?_set]
    split
    · next heq => simp [heq]
    · next hne => simp [hne, Met]
  have hnum : ∀ u, met.num u = if u = child then s.counter else s.num u := by
    intro u
    simp only [met, num, Dict.get?_set]
    split <;> rfl
  have hlink : ∀ u, met.link u = if u = child then s.counter else s.link u := by
    intro u
    simp only [met, link, Dict.get?_set]
    split <;> rfl
  have hnum_old : ∀ u, s.Met u → met.num u = s.num u := fun u hu => (hnum u).trans (if_neg (hne u hu))
  have hlink_old : ∀ u, s.Met u → met.link u = s.link u := fun u hu => (hlink u).trans (if_neg (hne u hu))
  have hnum_child : met.num child = s.counter := (hnum child).trans (if_pos rfl)
  have hlink_child : met.link child = met.num child := by rw [hlink, hnum_child, if_pos rfl]
  have hpath : ∀ a ∈ s.path, s.Met a := fun a ha => h.stacked a (h.frames.subset ha)
  have hlooked : ∀ u w, s.Met u → s.Looked u w → met.Looked u w := fun u w hu hw =>
    hw.mono ((hmet w).mpr (.inr hw.met)) (fun hmem => (List.mem_cons.mp hmem).resolve_left (hne w hw.met))
      (hlink_old u hu).le (hnum_old w hw.met).ge
  have hsound : met.Sound succs nodes none :=
    { same := fun u => by
        show (s.low.set child s.counter).get? u = none ↔ (s.index.set child s.counter).get? u = none
        rw [Dict.get?_set, Dict.get?_set]
        split
        · simp
        · exact h.same u
      numbered := fun u i hi => by
        change (s.index.set child s.counter).get? u = some i at hi
        rw [Dict.get?_set] at hi
        split at hi
        · next heq => exact ⟨heq ▸ hnode, Option.some.inj hi ▸ Nat.lt_succ_self _⟩
        · exact (h.numbered u i hi).imp_right fun hlt => Nat.lt_succ_of_lt hlt
      on := fun u => by
        show u ∈ insert child s.on_stack ↔ u ∈ child :: s.stack
        rw [Finset.mem_insert, List.mem_cons, h.on]
      stacked := fun u hu => by
        rcases List.mem_cons.mp hu with heq | hu
        · exact (hmet u).mpr (.inl heq)
        · exact (hmet u).mpr (.inr (h.stacked u hu))
      ordered := by
        refine List.pairwise_cons.mpr ⟨fun u hu => ?_, h.ordered.imp_of_mem fun ha hb hlt => ?_⟩
        · rw [hnum_child, hnum_old u (h.stacked u hu)]
          exact h.num_lt (h.stacked u hu)
        · rwa [hnum_old _ (h.stacked _ ha), hnum_old _ (h.stacked _ hb)]
      frames := h.frames.cons_cons child
      framed := by
        refine ⟨⟨c, hc, rfl⟩, fun w hw => ?_, h.framed.mono fun f hf w => ?_⟩
        · rw [List.take_zero] at hw
          cases hw
        · exact hlooked f.node w (hpath _ (List.mem_map_of_mem hf))
      paths := fun a ha u hu hle => by
        rcases List.mem_cons.mp hu with rfl | hu
        · rcases List.mem_cons.mp ha with rfl | ha
          · exact .refl
          · exact hreach a ha
        · have hold := h.stacked u hu
          rw [hnum_old u hold] at hle
          rcases List.mem_cons.mp ha with rfl | ha
          · rw [hnum_child] at hle
            exact absurd (h.num_lt hold) (not_lt_of_ge hle)
          · rw [hnum_old a (hpath a ha)] at hle
            exact h.paths a ha u hu hle
      link_le := fun u hu => by
        rcases List.mem_cons.mp hu with rfl | hu
        · exact hlink_child.le
        · rw [hlink_old u (h.stacked u hu), hnum_old u (h.stacked u hu)]
          exact h.link_le u hu
      witness := fun u hu => by
        rcases List.mem_cons.mp hu with rfl | hu
        · exact ⟨u, List.mem_cons_self, hlink_child.symm, .refl⟩
        · obtain ⟨w, hw, heq, hreach⟩ := h.witness u hu
          refine ⟨w, List.mem_cons_of_mem _ hw, ?_, hreach⟩
          rw [hlink_old u (h.stacked u hu), hnum_old w (h.stacked w hw)]
          exact heq
      ended := fun u hu hout => by
        have hout' := not_or.mp (mt List.mem_cons.mpr hout)
        have hold := (List.mem_cons.mp hu).resolve_left hout'.1
        obtain ⟨hlt, hall⟩ := h.ended u hold hout'.2
        rw [hlink_old u (h.stacked u hold), hnum_old u (h.stacked u hold)]
        exact ⟨hlt, fun w hw => hlooked u w (h.stacked u hold) (hall w hw)⟩
      inner := fun u hu => by
        rcases List.mem_cons.mp hu with rfl | hu
        · exact ⟨u, List.mem_cons_self, le_rfl, le_rfl, fun b _ hb => hb⟩
        · have hold := h.stacked u hu
          obtain ⟨a, ha, hle, hlink', hmax⟩ := h.inner u hu
          refine ⟨a, List.mem_cons_of_mem _ ha, ?_, ?_, fun b hb hbu => ?_⟩
          · rwa [hnum_old u hold, hnum_old a (hpath a ha)]
          · rwa [hlink_old u hold, hlink_old a (hpath a ha)]
          · rw [hnum_old u hold] at hbu
            rw [hnum_old a (hpath a ha)]
            rcases List.mem_cons.mp hb with rfl | hb
            · rw [hnum_child] at hbu
              exact absurd (h.num_lt hold) (not_lt_of_ge hbu)
            · rw [hnum_old b (hpath b hb)] at hbu ⊢
              exact hmax b hb hbu
      closed := fun u hu hout w hw => by
        have hout' := not_or.mp (mt List.mem_cons.mpr hout)
        obtain ⟨hmetw, houtw⟩ := h.closed u (((hmet u).mp hu).resolve_left hout'.1) hout'.2 w hw
        exact ⟨(hmet w).mpr (.inr hmetw), mt List.mem_cons.mp (not_or.mpr ⟨hne w hmetw, houtw⟩)⟩
      found := fun l => by
        have hpopped : ∀ a, (met.Met a ∧ a ∉ met.stack) ↔ s.Met a ∧ a ∉ s.stack := by
          intro a
          rw [hmet a]
          show _ ∧ a ∉ child :: s.stack ↔ _
          rw [List.mem_cons, not_or]
          constructor
          · rintro ⟨ha, hna, hout⟩
            exact ⟨ha.resolve_left hna, hout⟩
          · rintro ⟨ha, hout⟩
            exact ⟨.inr ha, hne a ha, hout⟩
        exact (h.found l).trans (and_congr_right fun _ => forall₂_congr fun a _ => (hpopped a).symm)
      once := h.once }
  exact ⟨met, hmeet, hsound, rfl, rfl⟩

/-! ## Closing a frame -/

/-- A frame with no child left has looked at every successor. -/
theorem Sound.looked (h : s.Sound succs nodes none) (hwork : s.work = f :: rest)
    (hdone : f.children[f.child_i]? = none) (hw : Succ succs f.node w) : s.Looked f.node w := by
  obtain ⟨⟨c, hc, hchildren⟩, htaken, -⟩ : s.Framed succs none (f :: rest) := hwork ▸ h.framed
  obtain ⟨c', hc', hw⟩ := hw
  obtain rfl := Option.some.inj (hc.symm.trans hc')
  have hmem : w ∈ f.children.take f.child_i := by
    rw [List.take_of_length_le (List.getElem?_eq_none_iff.mp hdone), hchildren]
    exact mem_sorted.mpr hw
  exact (htaken w hmem).resolve_left (by simp)

/-- The frame of a node that is no root is dropped once its parent's link is no greater. -/
theorem Sound.retire {g : Frame ν} (h : s.Sound succs nodes none) (hwork : s.work = f :: g :: rest)
    (hdone : f.children[f.child_i]? = none) (hlink : s.link f.node < s.num f.node)
    (hparent : s.link g.node ≤ s.link f.node) : Sound succs nodes none { s with work := g :: rest } := by
  have hpath : s.path = f.node :: ({ s with work := g :: rest } : Search ν).path := path_cons hwork
  obtain ⟨-, -, hchildren, htaken, hrest⟩ : s.Framed succs none (f :: g :: rest) := hwork ▸ h.framed
  have hstack : f.node ∈ s.stack := h.frames.subset (hpath ▸ List.mem_cons_self)
  have hlooked : ∀ u w, s.Looked u w → ({ s with work := g :: rest } : Search ν).Looked u w :=
    fun u w hw => ⟨hw.met, hw.low⟩
  have hpair : s.path.Pairwise fun a b => s.num b < s.num a := h.ordered.sublist h.frames
  rw [path_cons hwork, List.map_cons, List.pairwise_cons, List.pairwise_cons] at hpair
  obtain ⟨hbelow, hbelow', -⟩ := hpair
  exact
    { h with
      frames := (hpath ▸ List.sublist_cons_self _ _ : List.Sublist _ s.path).trans h.frames
      framed := by
        refine ⟨hchildren, fun w hw => .inr ?_, hrest.mono fun f _ => hlooked f.node⟩
        rcases htaken w hw with heq | hw
        · rw [Option.some.inj heq]
          exact ⟨h.stacked _ hstack, fun _ => hparent.trans (h.link_le _ hstack)⟩
        · exact hlooked _ w hw
      paths := fun a ha => h.paths a (hpath ▸ List.mem_cons_of_mem _ ha)
      ended := fun u hu hout => by
        by_cases heq : u = f.node
        · rw [heq]
          exact ⟨hlink, fun w hw => hlooked _ w (h.looked hwork hdone hw)⟩
        · have hout' : u ∉ s.path := hpath ▸ mt List.mem_cons.mp (not_or.mpr ⟨heq, hout⟩)
          exact (h.ended u hu hout').imp_right fun hall w hw => hlooked u w (hall w hw)
      inner := fun u hu => by
        obtain ⟨a, ha, hle, hlink', hmax⟩ := h.inner u hu
        rw [hpath] at ha hmax
        rcases List.mem_cons.mp ha with rfl | ha
        · -- the parent is the next frame around the node
          refine ⟨g.node, List.mem_cons_self, ((hbelow g.node List.mem_cons_self).trans_le hle).le,
            hparent.trans hlink', fun b hb _ => ?_⟩
          rcases List.mem_cons.mp hb with rfl | hb
          · exact le_rfl
          · exact (hbelow' b hb).le
        · exact ⟨a, ha, hle, hlink', fun b hb => hmax b (List.mem_cons_of_mem _ hb)⟩ }

theorem popUntil_ok : ∀ {stack : List ν}, v ∈ stack →
    ∃ scc rest, popUntil v stack = .ok (scc ++ [v], rest) ∧ stack = scc ++ v :: rest
  | member :: stack, hv => by
    by_cases heq : member = v
    · exact ⟨[], stack, by rw [popUntil, if_pos heq, heq]; rfl, by rw [heq]; rfl⟩
    · obtain ⟨scc, rest, hpop, hstack⟩ := popUntil_ok ((List.mem_cons.mp hv).resolve_left (Ne.symm heq))
      exact ⟨member :: scc, rest, by rw [popUntil, if_neg heq, hpop]; rfl, by rw [hstack]; rfl⟩

theorem mem_foldl_erase : ∀ {l : List ν} {on : Finset ν}, u ∈ l.foldl Finset.erase on ↔ u ∈ on ∧ u ∉ l
  | [], on => by simp
  | a :: l, on => by
    rw [List.foldl_cons, mem_foldl_erase, Finset.mem_erase, List.mem_cons, not_or]
    exact and_assoc.trans ⟨fun h => ⟨h.2.1, h.1, h.2.2⟩, fun h => ⟨h.2.1, h.1, h.2.2⟩⟩

/-- The nodes from a root on are its component, and their edges stay in it or end in popped nodes. -/
theorem Sound.component (h : s.Sound succs nodes none) (hwork : s.work = f :: rest)
    (hdone : f.children[f.child_i]? = none) (hroot : s.link f.node = s.num f.node) :
    (∀ w, Mutual (Succ succs) f.node w ↔ w ∈ s.stack ∧ s.num f.node ≤ s.num w) ∧
      ∀ u ∈ s.stack, s.num f.node ≤ s.num u → ∀ w, Succ succs u w →
        s.Met w ∧ (w ∈ s.stack → s.num f.node ≤ s.num w) := by
  have hpath : f.node ∈ s.path := path_cons hwork ▸ List.mem_cons_self
  have hstack : f.node ∈ s.stack := h.frames.subset hpath
  -- past the root every frame is gone
  have hgone : ∀ u ∈ s.stack, s.num f.node ≤ s.num u → u ≠ f.node → u ∉ s.path := fun u hu hle hne hmem => by
    rcases h.below hwork hmem with heq | hlt
    · exact hne heq
    · exact absurd hlt (not_lt_of_ge hle)
  have hlow : ∀ u ∈ s.stack, s.num f.node ≤ s.num u → s.num f.node ≤ s.link u := fun u hu hle =>
    hroot ▸ h.link_top hwork hu hle
  have hlooked : ∀ u ∈ s.stack, s.num f.node ≤ s.num u → ∀ w, Succ succs u w → s.Looked u w := by
    intro u hu hle w hw
    by_cases heq : u = f.node
    · rw [heq] at hw ⊢
      exact h.looked hwork hdone hw
    · exact (h.ended u hu (hgone u hu hle heq)).2 w hw
  have hedges : ∀ u ∈ s.stack, s.num f.node ≤ s.num u → ∀ w, Succ succs u w →
      s.Met w ∧ (w ∈ s.stack → s.num f.node ≤ s.num w) := fun u hu hle w hw =>
    let h' := hlooked u hu hle w hw
    ⟨h'.met, fun hmem => (hlow u hu hle).trans (h'.low hmem)⟩
  refine ⟨fun w => ?_, hedges⟩
  refine mutual_iff_mem (S := fun w => w ∈ s.stack ∧ s.num f.node ≤ s.num w) (D := fun w => s.Met w ∧ w ∉ s.stack)
    (fun u hu => ⟨h.paths _ hpath u hu.1 hu.2, ?_⟩) ⟨hstack, le_rfl⟩ (fun u hu w hw => ?_)
    (fun a ha b hab => h.closed a ha.1 ha.2 b hab) (fun hout => hout.2 hstack)
  · refine reaches_least (P := fun w => w ∈ s.stack ∧ s.num f.node ≤ s.num w) (f := s.num) (fun u hu hne => ?_) u hu
    obtain ⟨hlt, -⟩ := h.ended u hu.1 (hgone u hu.1 hu.2 hne)
    obtain ⟨w, hw, heq, hreach⟩ := h.witness u hu.1
    exact ⟨w, ⟨hw, heq ▸ hlow u hu.1 hu.2⟩, heq ▸ hlt, hreach⟩
  · obtain ⟨hmet, hle⟩ := hedges u hu.1 hu.2 w hw
    by_cases hmem : w ∈ s.stack
    · exact .inl ⟨hmem, hle hmem⟩
    · exact .inr ⟨hmet, hmem⟩

/-- A cycle that meets a component is that component. -/
theorem cycle_eq {l scc : List ν} (hl : IsCycle succs nodes l) (hnodup : scc.Nodup)
    (hscc : ∀ w, w ∈ scc ↔ Mutual (Succ succs) v w) (ha : u ∈ l) (hu : u ∈ scc) : l = sortedList scc := by
  obtain ⟨hsorted, v', -, hmem, -⟩ := hl
  refine hsorted.eq_of_mem_iff (sortedList_sortedLT hnodup) fun w => ?_
  have hvv : Mutual (Succ succs) v v' := ((hscc u).mp hu).trans ((hmem u).mp ha).symm
  rw [hmem, mem_sortedList, hscc]
  exact ⟨hvv.trans, hvv.symm.trans⟩

/-- What is found once a component is popped, counted where it has an edge inside. -/
theorem Sound.found_pop {scc below : List ν} (h : s.Sound succs nodes none) (hv : v ∈ s.stack)
    (hnodup : scc.Nodup) (hscc : ∀ w, w ∈ scc ↔ Mutual (Succ succs) v w)
    (hsplit : ∀ w, w ∈ s.stack ↔ w ∈ scc ∨ w ∈ below) (hdisjoint : ∀ w ∈ scc, w ∉ below) (l : List ν) :
    (l ∈ s.result ∨ l = sortedList scc ∧ (1 < scc.length ∨ Succ succs v v)) ↔
      IsCycle succs nodes l ∧ ∀ a ∈ l, s.Met a ∧ a ∉ below := by
  constructor
  · rintro (hl | ⟨rfl, hinside⟩)
    · obtain ⟨hcycle, hout⟩ := (h.found l).mp hl
      exact ⟨hcycle, fun a ha => (hout a ha).imp_right fun hout hmem => hout ((hsplit a).mpr (.inr hmem))⟩
    · have hnode : v ∈ nodes := (h.numbered v _ (h.stacked v hv).num).1
      refine ⟨⟨sortedList_sortedLT hnodup, v, hnode, fun w => by rw [mem_sortedList, hscc], ?_⟩, fun a ha => ?_⟩
      · rwa [sortedList_perm.length_eq]
      · have ha' := mem_sortedList.mp ha
        exact ⟨h.stacked a ((hsplit a).mpr (.inl ha')), hdisjoint a ha'⟩
  · rintro ⟨hcycle, hout⟩
    by_cases hmeets : ∃ a ∈ l, a ∈ s.stack
    · obtain ⟨a, ha, hstack⟩ := hmeets
      have hin : a ∈ scc := ((hsplit a).mp hstack).resolve_right (hout a ha).2
      have heq : l = sortedList scc := cycle_eq hcycle hnodup hscc ha hin
      refine .inr ⟨heq, ?_⟩
      obtain ⟨-, v', -, hmem, hinside⟩ := hcycle
      have hlen : l.length = scc.length := by rw [heq, sortedList_perm.length_eq]
      by_cases hone : 1 < scc.length
      · exact .inl hone
      · refine .inr ?_
        have hself := hinside.resolve_left (hlen ▸ hone)
        have hv' : v' ∈ scc := by
          rw [← mem_sortedList, ← heq]
          exact (hmem v').mpr .refl
        have hvin : v ∈ scc := (hscc v).mpr .refl
        obtain ⟨b, hb⟩ := List.length_eq_one_iff.mp
          (le_antisymm (not_lt.mp hone) (List.length_pos_of_mem hvin))
        rw [hb, List.mem_singleton] at hv' hvin
        rwa [hvin, ← hv']
    · exact .inl ((h.found l).mpr ⟨hcycle, fun a ha => ⟨(hout a ha).1, fun hstack => hmeets ⟨a, ha, hstack⟩⟩⟩)

/-- A root's frame is dropped and its component popped. -/
theorem Sound.pop (h : s.Sound succs nodes none) (hwork : s.work = f :: rest)
    (hdone : f.children[f.child_i]? = none) (hroot : s.link f.node = s.num f.node) :
    ∃ s', close succs f.node { s with work := rest } = .ok s' ∧ s'.Sound succs nodes none ∧ s'.work = rest ∧
      s'.index = s.index := by
  have hpath : s.path = f.node :: rest.map (·.node) := path_cons hwork
  have hin : f.node ∈ s.path := hpath ▸ List.mem_cons_self
  have hstack : f.node ∈ s.stack := h.frames.subset hin
  have hmet := h.stacked _ hstack
  obtain ⟨hmutual, hedges⟩ := h.component hwork hdone hroot
  obtain ⟨seg, below, hpop, heq⟩ := popUntil_ok hstack
  have hordered := h.ordered
  rw [heq] at hordered
  have hseg : ∀ u ∈ seg ++ [f.node], s.num f.node ≤ s.num u := fun u hu => by
    rcases List.mem_append.mp hu with hu | hu
    · exact ((List.pairwise_append.mp hordered).2.2 u hu _ List.mem_cons_self).le
    · rw [List.mem_singleton.mp hu]
  have hbelow : ∀ u ∈ below, s.num u < s.num f.node :=
    (List.pairwise_cons.mp (List.pairwise_append.mp hordered).2.1).1
  have hsplit : ∀ u, u ∈ s.stack ↔ u ∈ seg ++ [f.node] ∨ u ∈ below := fun u => by
    rw [heq]
    simp [or_assoc]
  have hcomponent : ∀ w, w ∈ seg ++ [f.node] ↔ Mutual (Succ succs) f.node w := fun w => by
    rw [hmutual, hsplit]
    refine ⟨fun hw => ⟨.inl hw, hseg w hw⟩, fun hw => hw.1.resolve_right fun hmem => ?_⟩
    exact absurd (hbelow w hmem) (not_lt_of_ge hw.2)
  have hnodup : (seg ++ [f.node]).Nodup := by
    have hall : s.stack.Nodup := h.ordered.imp fun hlt heq => absurd (congrArg s.num heq) hlt.ne'
    rw [heq, List.append_cons] at hall
    exact (List.nodup_append.mp hall).1
  have hdisjoint : ∀ w ∈ seg ++ [f.node], w ∉ below := fun w hw hmem =>
    absurd (hbelow w hmem) (not_lt_of_ge (hseg w hw))
  have hfound := h.found_pop hstack hnodup hcomponent hsplit hdisjoint
  obtain ⟨c, hc⟩ : ∃ c, succs.get? f.node = some c := by
    obtain ⟨⟨c, hc, -⟩, -, -⟩ : s.Framed succs none (f :: rest) := hwork ▸ h.framed
    exact ⟨c, hc⟩
  -- the state after the pop, whatever is appended to the result
  let popped (result : List (List ν)) : Search ν := { s with
    work := rest
    stack := below
    on_stack := (seg ++ [f.node]).foldl Finset.erase s.on_stack
    result }
  have hsound : ∀ result : List (List ν), result.Nodup →
      (∀ l, l ∈ result ↔ l ∈ s.result ∨ l = sortedList (seg ++ [f.node]) ∧
        (1 < (seg ++ [f.node]).length ∨ Succ succs f.node f.node)) →
      (popped result).Sound succs nodes none := by
    intro result honce hresult
    obtain ⟨-, -, hrest⟩ : s.Framed succs none (f :: rest) := hwork ▸ h.framed
    have hlooked : ∀ u w, s.Looked u w → (popped result).Looked u w := fun u w hw =>
      ⟨hw.met, fun hmem => hw.low ((hsplit w).mpr (.inr hmem))⟩
    have hold : ∀ u ∈ below, u ∈ s.stack := fun u hu => (hsplit u).mpr (.inr hu)
    have hpath' : ∀ a, a ∈ (popped result).path ↔ a ∈ s.path ∧ s.num a < s.num f.node := fun a => by
      constructor
      · intro ha
        have ha' : a ∈ s.path := hpath ▸ List.mem_cons_of_mem _ ha
        exact ⟨ha', (List.pairwise_cons.mp (hpath ▸ h.ordered.sublist h.frames)).1 a ha⟩
      · rintro ⟨ha, hlt⟩
        rw [hpath] at ha
        exact (List.mem_cons.mp ha).resolve_left fun heq => absurd hlt (heq ▸ lt_irrefl _)
    have hbefore : ∀ u ∈ s.stack, s.num u < s.num f.node → u ∈ below := fun u hu hlt =>
      ((hsplit u).mp hu).resolve_left fun hmem => absurd hlt (not_lt_of_ge (hseg u hmem))
    exact
      { same := h.same
        numbered := h.numbered
        on := fun u => by
          show u ∈ (seg ++ [f.node]).foldl Finset.erase s.on_stack ↔ u ∈ below
          rw [mem_foldl_erase, h.on, hsplit]
          exact ⟨fun hu => hu.1.resolve_left hu.2, fun hu => ⟨.inr hu, fun hmem => hdisjoint u hmem hu⟩⟩
        stacked := fun u hu => h.stacked u (hold u hu)
        ordered := (List.pairwise_cons.mp (List.pairwise_append.mp hordered).2.1).2
        frames := by
          -- both lists are what was met before the root
          have hfilter := h.frames.filter fun u => decide (s.num u < s.num f.node)
          have htail : (rest.map (·.node)).filter (fun u => decide (s.num u < s.num f.node)) = rest.map (·.node) :=
            List.filter_eq_self.mpr fun a ha => decide_eq_true ((hpath' a).mp ha).2
          have hkept : below.filter (fun u => decide (s.num u < s.num f.node)) = below :=
            List.filter_eq_self.mpr fun a ha => decide_eq_true (hbelow a ha)
          have hdropped : seg.filter (fun u => decide (s.num u < s.num f.node)) = [] :=
            List.filter_eq_nil_iff.mpr fun a ha => by simpa using hseg a (List.mem_append_left _ ha)
          rw [hpath, heq, List.filter_append, List.filter_cons_of_neg (by simp), List.filter_cons_of_neg (by simp),
            htail, hkept, hdropped, List.nil_append] at hfilter
          exact hfilter
        framed := by
          cases rest with
          | nil => trivial
          | cons g rest =>
            obtain ⟨hchildren, htaken, hrest⟩ := hrest
            refine ⟨hchildren, fun w hw => .inr ?_, hrest.mono fun g _ => hlooked g.node⟩
            rcases htaken w hw with hw | hw
            · rw [Option.some.inj hw]
              exact ⟨hmet, fun hmem => absurd (hbelow _ hmem) (lt_irrefl _)⟩
            · exact hlooked _ w hw
        paths := fun a ha u hu => h.paths a ((hpath' a).mp ha).1 u (hold u hu)
        link_le := fun u hu => h.link_le u (hold u hu)
        witness := fun u hu => by
          obtain ⟨w, hw, hnum, hreach⟩ := h.witness u (hold u hu)
          have hlt : s.num w < s.num f.node := hnum ▸ (h.link_le u (hold u hu)).trans_lt (hbelow u hu)
          exact ⟨w, hbefore w hw hlt, hnum, hreach⟩
        ended := fun u hu hout => by
          have hout' : u ∉ s.path := fun hmem => hout ((hpath' u).mpr ⟨hmem, hbelow u hu⟩)
          exact (h.ended u (hold u hu) hout').imp_right fun hall w hw => hlooked u w (hall w hw)
        inner := fun u hu => by
          obtain ⟨a, ha, hle, hlink, hmax⟩ := h.inner u (hold u hu)
          exact ⟨a, (hpath' a).mpr ⟨ha, hle.trans_lt (hbelow u hu)⟩, hle, hlink,
            fun b hb => hmax b ((hpath' b).mp hb).1⟩
        closed := fun u hu hout w hw => by
          by_cases hmem : u ∈ s.stack
          · have hin := ((hsplit u).mp hmem).resolve_right hout
            obtain ⟨hmetw, hle⟩ := hedges u hmem (hseg u hin) w hw
            exact ⟨hmetw, fun hw' => absurd (hbelow w hw') (not_lt_of_ge (hle (hold w hw')))⟩
          · exact (h.closed u hu hmem w hw).imp_right fun hout' hw' => hout' (hold w hw')
        found := fun l => (hresult l).trans (hfound l)
        once := honce }
  have hlow : item s.low f.node = .ok (s.link f.node) := by rw [item, h.linked hmet]
  have hindex : item s.index f.node = .ok (s.num f.node) := by rw [item, hmet.num]
  have hsuccs : item succs f.node = .ok c := by rw [item, hc]
  have hself : f.node ∈ c ↔ Succ succs f.node f.node := by simp [Succ, hc]
  by_cases hinside : 1 < (seg ++ [f.node]).length ∨ Succ succs f.node f.node
  · refine ⟨popped (s.result ++ [sortedList (seg ++ [f.node])]), ?_, hsound _ ?_ ?_, rfl, rfl⟩
    · simp only [close, hlow, hindex, hroot, hpop, hsuccs, Infra.ok_bind, if_true]
      exact if_pos (hinside.imp_right hself.mpr)
    · -- a component that was popped before holds no node of the stack
      refine List.nodup_append.mpr ⟨h.once, List.nodup_singleton _, fun l hl l' hl' heq' => ?_⟩
      rw [heq', List.mem_singleton.mp hl'] at hl
      have hv : f.node ∈ sortedList (seg ++ [f.node]) := mem_sortedList.mpr ((hcomponent _).mpr .refl)
      exact (((h.found _).mp hl).2 _ hv).2 hstack
    · intro l
      rw [List.mem_append, List.mem_singleton]
      exact or_congr_right (and_iff_left hinside).symm
  · refine ⟨popped s.result, ?_, hsound _ h.once ?_, rfl, rfl⟩
    · simp only [close, hlow, hindex, hroot, hpop, hsuccs, Infra.ok_bind, if_true]
      exact if_neg fun h' => hinside (h'.imp_right hself.mp)
    · intro l
      exact (or_iff_left fun hl => hinside hl.2).symm

/-! ## One turn -/

/-- The nodes not met yet. -/
def unmet (nodes : List ν) (s : Search ν) : Finset ν := nodes.toFinset.filter fun v => (s.index.get? v).isNone

/-- The turns a node takes: one for each child and one to close it. -/
def turns (succs : Dict ν (Finset ν)) (v : ν) : Nat := ((succs.get? v).getD ∅).card + 1

/-- The turns the frames and the nodes not met yet still take. -/
def owed (succs : Dict ν (Finset ν)) (nodes : List ν) (s : Search ν) : Nat :=
  (s.work.map fun f => f.children.length - f.child_i + 1).sum + (unmet nodes s).sum (turns succs)

theorem owed_meet {child : ν} {c : Finset ν} (hnew : s.index.get? child = none) (hnode : child ∈ nodes)
    (hc : succs.get? child = some c) (hwork : s'.work = { node := child, children := sorted c, child_i := 0 } :: s.work)
    (hindex : s'.index = s.index.set child s.counter) : owed succs nodes s' = owed succs nodes s := by
  have hunmet : unmet nodes s' = (unmet nodes s).erase child := by
    ext v
    simp only [unmet, hindex, Finset.mem_filter, Finset.mem_erase, Dict.get?_set]
    by_cases heq : v = child
    · simp [heq]
    · simp [heq]
  have hmem : child ∈ unmet nodes s := by simp [unmet, hnode, hnew]
  have hturns : turns succs child = (sorted c).length - 0 + 1 := by
    rw [turns, hc, length_sorted]
    rfl
  have hsum := Finset.add_sum_erase (unmet nodes s) (turns succs) hmem
  rw [owed, owed, hwork, hunmet, List.map_cons, List.sum_cons, ← hsum, hturns]
  ring

theorem Sound.reaches_child {child : ν} (h : s.Sound succs nodes none) (hwork : s.work = f :: rest)
    (hchild : f.children[f.child_i]? = some child) :
    Succ succs f.node child ∧ ∀ a ∈ s.path, Reaches (Succ succs) a child := by
  obtain ⟨⟨c, hc, hchildren⟩, -, -⟩ : s.Framed succs none (f :: rest) := hwork ▸ h.framed
  have hedge : Succ succs f.node child := ⟨c, hc, mem_sorted.mp (hchildren ▸ List.mem_of_getElem? hchild)⟩
  have hstack : f.node ∈ s.stack := h.frames.subset (path_cons hwork ▸ List.mem_cons_self)
  refine ⟨hedge, fun a ha => (h.paths a ha _ hstack ?_).tail hedge⟩
  rcases h.below hwork ha with heq | hlt
  · rw [heq]
  · exact hlt.le

/-- A turn that looks at a child. -/
theorem Sound.turn_child {child : ν} (hdef : Defined succs nodes) (h : s.Sound succs nodes none)
    (hwork : s.work = f :: rest) (hchild : f.children[f.child_i]? = some child) :
    ∃ s', turn succs f { s with work := rest } = .ok s' ∧ s'.Sound succs nodes none ∧
      (∀ v, s.Met v → s'.Met v) ∧ owed succs nodes s' + 1 = owed succs nodes s := by
  obtain ⟨hedge, hreach⟩ := h.reaches_child hwork hchild
  have hin : f.node ∈ s.path := path_cons hwork ▸ List.mem_cons_self
  have hstack : f.node ∈ s.stack := h.frames.subset hin
  let ahead : Search ν := { s with work := { f with child_i := f.child_i + 1 } :: rest }
  have hahead : ahead.Sound succs nodes (some child) := h.advance hwork hchild
  have hpath : ahead.path = s.path := (path_cons hwork).symm
  have hturn : turn succs f { s with work := rest } = look succs f.node child ahead := by
    rw [turn, hchild]
  have howed : owed succs nodes ahead + 1 = owed succs nodes s := by
    have hlt := (List.getElem?_eq_some_iff.mp hchild).1
    have hahead' : owed succs nodes ahead = f.children.length - (f.child_i + 1) + 1 +
        (rest.map fun f => f.children.length - f.child_i + 1).sum + (unmet nodes s).sum (turns succs) := rfl
    have hs : owed succs nodes s = f.children.length - f.child_i + 1 +
        (rest.map fun f => f.children.length - f.child_i + 1).sum + (unmet nodes s).sum (turns succs) := by
      rw [owed, hwork]
      rfl
    omega
  cases hindex : s.index.get? child with
  | none =>
    have hnode : f.node ∈ nodes := (h.numbered _ _ (h.stacked _ hstack).num).1
    obtain ⟨c, hc, hall⟩ := hdef f.node hnode
    obtain ⟨c', hc', hmem⟩ := hedge
    obtain rfl := Option.some.inj (hc.symm.trans hc')
    obtain ⟨d, hd, -⟩ := hdef child (hall child hmem)
    obtain ⟨s', hmeet, hsound, hwork', hindex'⟩ := hahead.meet hindex (hall child hmem) hd (hpath ▸ hreach)
    refine ⟨s', ?_, hsound, fun v hv => ?_, ?_⟩
    · rw [hturn, look, hindex, hmeet]
    · rw [Met, hindex', Dict.get?_set]
      split
      · exact Option.some_ne_none _
      · exact hv
    · rw [owed_meet (s := ahead) hindex (hall child hmem) hd hwork' hindex', howed]
  | some found =>
    have hmet : s.Met child := by rw [Met, hindex]; exact Option.some_ne_none _
    have hnum : s.num child = found := by rw [num, hindex]; rfl
    by_cases hon : child ∈ s.on_stack
    · -- the link of the frame's node takes the child's number
      have hchildren : child ∈ s.stack := (h.on child).mp hon
      have hrelinked := hahead.relink (m := min (s.link f.node) found) (hpath ▸ hin) (min_le_left _ _) (by
        rcases min_choice (s.link f.node) found with heq | heq
        · rw [heq]
          exact h.witness f.node hstack
        · rw [heq]
          exact ⟨child, hchildren, hnum, .single hedge⟩)
      have hlow : item s.low f.node = .ok (s.link f.node) := by rw [item, h.linked (h.stacked _ hstack)]
      have hlooked : Looked { ahead with low := s.low.set f.node (min (s.link f.node) found) } f.node child := by
        refine ⟨hmet, fun _ => ?_⟩
        show link _ f.node ≤ s.num child
        rw [link, Dict.get?_set_self, hnum]
        exact min_le_right _ _
      refine ⟨_, ?_, hrelinked.arrive rfl hlooked, fun v hv => hv, howed⟩
      rw [hturn, look, hindex]
      simp only [ahead, if_pos hon, hlow, Infra.ok_bind]
      rfl
    · have hlooked : ahead.Looked f.node child := ⟨hmet, fun hmem => absurd ((h.on child).mpr hmem) hon⟩
      refine ⟨ahead, ?_, hahead.arrive rfl hlooked, fun v hv => hv, howed⟩
      rw [hturn, look, hindex]
      exact if_neg hon

/-- A node with a number above its link stays on the stack. -/
theorem Sound.close_open (h : s.Sound succs nodes none) (hv : s.Met v) (hne : s.link v ≠ s.num v) :
    close succs v { s with work := rest } = .ok { s with work := rest } := by
  have hlow : item s.low v = .ok (s.link v) := by rw [item, h.linked hv]
  have hindex : item s.index v = .ok (s.num v) := by rw [item, hv.num]
  simp only [close, hlow, hindex, Infra.ok_bind, if_neg hne]
  rfl

/-- A turn that closes a frame. -/
theorem Sound.turn_close (h : s.Sound succs nodes none) (hwork : s.work = f :: rest)
    (hdone : f.children[f.child_i]? = none) :
    ∃ s', turn succs f { s with work := rest } = .ok s' ∧ s'.Sound succs nodes none ∧
      s'.work = rest ∧ s'.index = s.index := by
  have hin : f.node ∈ s.path := path_cons hwork ▸ List.mem_cons_self
  have hstack : f.node ∈ s.stack := h.frames.subset hin
  cases rest with
  | nil =>
    -- the last frame's node is a root: nothing before it is on the stack
    have hroot : s.link f.node = s.num f.node := by
      refine le_antisymm (h.link_le _ hstack) ?_
      obtain ⟨w, hw, heq, -⟩ := h.witness _ hstack
      obtain ⟨a, ha, hle, -⟩ := h.inner w hw
      rw [path_cons hwork, List.map_nil, List.mem_singleton] at ha
      rw [← heq, ← ha]
      exact hle
    obtain ⟨s', hclose, hsound, hwork', hindex⟩ := h.pop hwork hdone hroot
    refine ⟨s', ?_, hsound, hwork', hindex⟩
    rw [turn, hdone]
    exact hclose
  | cons g rest =>
    have hpath : s.path = f.node :: g.node :: rest.map (·.node) := path_cons hwork
    have hg : g.node ∈ s.path := hpath ▸ List.mem_cons_of_mem _ List.mem_cons_self
    have hlt : s.num g.node < s.num f.node := by
      have hpair : s.path.Pairwise fun a b => s.num b < s.num a := h.ordered.sublist h.frames
      rw [hpath] at hpair
      exact (List.pairwise_cons.mp hpair).1 _ List.mem_cons_self
    have hne : f.node ≠ g.node := fun heq => absurd hlt (heq ▸ lt_irrefl _)
    let told : Search ν := { s with low := s.low.set g.node (min (s.link g.node) (s.link f.node)) }
    have htold : told.Sound succs nodes none := h.relink hg (min_le_left _ _) (by
      rcases min_choice (s.link g.node) (s.link f.node) with heq | heq
      · rw [heq]
        exact h.witness _ (h.frames.subset hg)
      · rw [heq]
        obtain ⟨w, hw, hnum, hreach⟩ := h.witness _ hstack
        exact ⟨w, hw, hnum, (h.paths _ hg _ hstack hlt.le).trans hreach⟩)
    have hlink : told.link f.node = s.link f.node := by
      simp only [told, link, Dict.get?_set_ne hne]
    have hparent : told.link g.node ≤ told.link f.node := by
      rw [hlink]
      simp only [told, link, Dict.get?_set_self]
      exact min_le_right _ _
    have htell : tell f.node { s with work := g :: rest } = .ok { told with work := g :: rest } := by
      have hlow : item s.low g.node = .ok (s.link g.node) := by
        rw [item, h.linked (h.stacked _ (h.frames.subset hg))]
      have hlow' : item s.low f.node = .ok (s.link f.node) := by rw [item, h.linked (h.stacked _ hstack)]
      simp only [tell, hlow, hlow', Infra.ok_bind]
      rfl
    have hturn : turn succs f { s with work := g :: rest } = close succs f.node { told with work := g :: rest } := by
      rw [turn, hdone]
      simp only [htell, Infra.ok_bind]
    by_cases hroot : told.link f.node = told.num f.node
    · obtain ⟨s', hclose, hsound, hwork', hindex⟩ := htold.pop hwork hdone hroot
      exact ⟨s', hturn.trans hclose, hsound, hwork', hindex⟩
    · have hlt' : told.link f.node < told.num f.node := lt_of_le_of_ne (htold.link_le _ hstack) hroot
      exact ⟨_, hturn.trans (htold.close_open (h.stacked _ hstack) hroot),
        htold.retire hwork hdone hlt' hparent, rfl, rfl⟩

/-- A turn keeps what holds, forgets no node and uses up one unit of what is owed. -/
theorem Sound.turn (hdef : Defined succs nodes) (h : s.Sound succs nodes none) (hwork : s.work = f :: rest) :
    ∃ s', turn succs f { s with work := rest } = .ok s' ∧ s'.Sound succs nodes none ∧
      (∀ v, s.Met v → s'.Met v) ∧ owed succs nodes s' + 1 = owed succs nodes s := by
  cases hchild : f.children[f.child_i]? with
  | some child => exact h.turn_child hdef hwork hchild
  | none =>
    obtain ⟨s', hturn, hsound, hwork', hindex⟩ := h.turn_close hwork hchild
    refine ⟨s', hturn, hsound, fun v hv => by rwa [Met, hindex], ?_⟩
    have hle := List.getElem?_eq_none_iff.mp hchild
    have hunmet : unmet nodes s' = unmet nodes s := by rw [unmet, hindex, unmet]
    rw [owed, owed, hunmet, hwork', hwork, List.map_cons, List.sum_cons, Nat.sub_eq_zero_of_le hle]
    ring

/-! ## The whole search -/

/-- The turns of a search that has met nothing. -/
def total (succs : Dict ν (Finset ν)) (nodes : List ν) : Nat := nodes.toFinset.sum (turns succs)

theorem owed_le_total (hwork : s.work = []) : owed succs nodes s ≤ total succs nodes := by
  rw [owed, hwork, List.map_nil, List.sum_nil, Nat.zero_add]
  exact Finset.sum_le_sum_of_subset (Finset.filter_subset _ _)

/-- Without a frame nothing is on the stack. -/
theorem Sound.stack_nil (h : s.Sound succs nodes above) (hwork : s.work = []) : s.stack = [] := by
  refine List.eq_nil_iff_forall_not_mem.mpr fun u hu => ?_
  obtain ⟨a, ha, -⟩ := h.inner u hu
  rw [path, hwork] at ha
  cases ha

/-- `while work` ends, with no frame left. -/
theorem Sound.run (hdef : Defined succs nodes) : ∀ (fuel : Nat) {s : Search ν}, s.Sound succs nodes none →
    owed succs nodes s < fuel → ∃ s', Search.run succs fuel s = .ok (some s') ∧ s'.Sound succs nodes none ∧
      s'.work = [] ∧ ∀ v, s.Met v → s'.Met v
  | fuel + 1, s, h, hfuel => by
    rw [Search.run]
    cases hwork : s.work with
    | nil => exact ⟨s, rfl, h, hwork, fun _ hv => hv⟩
    | cons f rest =>
      obtain ⟨t, hturn, hsound, hmet, howed⟩ := h.turn hdef hwork
      obtain ⟨s', hrun, hsound', hwork', hmet'⟩ := hsound.run hdef fuel (by omega)
      refine ⟨s', ?_, hsound', hwork', fun v hv => hmet' v (hmet v hv)⟩
      simp only [hturn, Infra.ok_bind]
      exact hrun

/-- A root that is not met yet: the search from it ends with the root met. -/
theorem Sound.root {fuel : Nat} {root : ν} (hdef : Defined succs nodes) (h : s.Sound succs nodes none)
    (hwork : s.work = []) (hroot : root ∈ nodes) (hnew : s.index.get? root = none)
    (hfuel : total succs nodes < fuel) :
    ∃ t s', s.meet succs root = .ok t ∧ Search.run succs fuel t = .ok (some s') ∧ s'.Sound succs nodes none ∧
      s'.work = [] ∧ s'.Met root ∧ ∀ v, s.Met v → s'.Met v := by
  obtain ⟨c, hc, -⟩ := hdef root hroot
  have hwaits : s.Sound succs nodes (some root) := { h with framed := by rw [hwork]; trivial }
  obtain ⟨t, hmeet, hsound, hwork', hindex⟩ := hwaits.meet hnew hroot hc (by
    intro a ha
    rw [path, hwork] at ha
    cases ha)
  have howed : owed succs nodes t = owed succs nodes s := owed_meet hnew hroot hc hwork' hindex
  have htotal := @owed_le_total _ _ succs nodes _ hwork
  obtain ⟨s', hrun, hsound', hdone, hmet⟩ := hsound.run hdef fuel (by omega)
  have hmet' : ∀ v, v = root ∨ s.Met v → t.Met v := by
    intro v hv
    rw [Met, hindex, Dict.get?_set]
    split
    · exact Option.some_ne_none _
    · next hne => exact hv.resolve_left hne
  exact ⟨t, s', hmeet, hrun, hsound', hdone, hmet _ (hmet' root (.inl rfl)),
    fun v hv => hmet v (hmet' v (.inr hv))⟩

/-- `for root in nodes` meets every root. -/
theorem Sound.roots {fuel : Nat} (hdef : Defined succs nodes) (hfuel : total succs nodes < fuel) :
    ∀ (left : List ν) {s : Search ν}, s.Sound succs nodes none → s.work = [] → (∀ v ∈ left, v ∈ nodes) →
      ∃ s', Search.roots succs fuel left s = .ok (some s') ∧ s'.Sound succs nodes none ∧ s'.work = [] ∧
        (∀ v, s.Met v → s'.Met v) ∧ ∀ v ∈ left, s'.Met v
  | [], s, h, hwork, _ => ⟨s, rfl, h, hwork, fun _ hv => hv, fun _ hv => by cases hv⟩
  | root :: left, s, h, hwork, hleft => by
    have hrest : ∀ v ∈ left, v ∈ nodes := fun v hv => hleft v (List.mem_cons_of_mem _ hv)
    rw [Search.roots]
    cases hindex : s.index.get? root with
    | some i =>
      obtain ⟨s', hroots, hsound, hdone, hmet, hall⟩ := h.roots hdef hfuel left hwork hrest
      refine ⟨s', hroots, hsound, hdone, hmet, fun v hv => ?_⟩
      rcases List.mem_cons.mp hv with rfl | hv
      · exact hmet v (by rw [Met, hindex]; exact Option.some_ne_none _)
      · exact hall v hv
    | none =>
      obtain ⟨t, u, hmeet, hrun, hsound, hdone, hroot, hmet⟩ :=
        h.root hdef hwork (hleft root List.mem_cons_self) hindex hfuel
      obtain ⟨s', hroots, hsound', hdone', hmet', hall⟩ := hsound.roots hdef hfuel left hdone hrest
      refine ⟨s', ?_, hsound', hdone', fun v hv => hmet' v (hmet v hv), fun v hv => ?_⟩
      · simp only [Option.isSome_none, Bool.false_eq_true, if_false, hmeet, hrun, Infra.ok_bind]
        exact hroots
      · rcases List.mem_cons.mp hv with rfl | hv
        · exact hmet' v hroot
        · exact hall v hv

theorem sound_start : Sound succs nodes none ({} : Search ν) where
  same := fun _ => Iff.rfl
  numbered := fun _ _ h => nomatch h
  on := fun _ => by simp
  stacked := fun _ h => nomatch h
  ordered := .nil
  frames := .slnil
  framed := trivial
  paths := fun _ h => nomatch h
  link_le := fun _ h => nomatch h
  witness := fun _ h => nomatch h
  ended := fun _ h => nomatch h
  inner := fun _ h => nomatch h
  closed := fun _ h => absurd rfl h
  found := fun l => by
    refine iff_of_false List.not_mem_nil fun ⟨⟨_, v, _, hmem, _⟩, hall⟩ => ?_
    exact (hall v ((hmem v).mpr .refl)).1 rfl
  once := .nil

end Search

/-- What a node reaches is among the nodes. -/
theorem Defined.reaches (hdef : Defined succs nodes) (hv : v ∈ nodes) (h : Reaches (Succ succs) v w) : w ∈ nodes := by
  refine mem_of_reaches (P := (· ∈ nodes)) (fun a ha b ⟨c, hc, hb⟩ => ?_) h hv
  obtain ⟨c', hc', hall⟩ := hdef a ha
  exact hall b (Option.some.inj (hc'.symm.trans hc) ▸ hb)

/-- The search ends, and has found the cycles. -/
theorem roots_cycles (hdef : Defined succs nodes) {fuel : Nat} (hfuel : Search.total succs nodes < fuel) :
    ∃ s, Search.roots succs fuel nodes {} = .ok (some s) ∧ s.result.Nodup ∧
      ∀ l, l ∈ s.result ↔ IsCycle succs nodes l := by
  obtain ⟨s, hroots, hsound, hdone, -, hmet⟩ :=
    Search.sound_start.roots hdef hfuel nodes rfl fun _ hv => hv
  refine ⟨s, hroots, hsound.once, fun l => ?_⟩
  rw [hsound.found, hsound.stack_nil hdone]
  refine ⟨fun h => h.1, fun h => ⟨h, fun a ha => ?_⟩⟩
  obtain ⟨v, hv, hmem, -⟩ := h.2
  exact ⟨hmet a (hdef.reaches hv ((hmem a).mp ha).1), List.not_mem_nil⟩

/-- The search returns, and what it returns are the cycles, each once and in order. -/
theorem cycles_components (hdef : Defined succs nodes) {fuel : Nat} (hfuel : Search.total succs nodes < fuel) :
    ∃ found, cycles fuel nodes succs = .ok (some found) ∧ found.SortedLT ∧
      ∀ l, l ∈ found ↔ IsCycle succs nodes l := by
  obtain ⟨s, hroots, honce, hcycles⟩ := roots_cycles hdef hfuel
  refine ⟨sortedList s.result, ?_, sortedList_sortedLT honce, fun l => ?_⟩
  · rw [cycles, hroots]
    rfl
  · rw [mem_sortedList, hcycles]

/-- Two nodes that succeed each other, one that succeeds itself and one on no cycle. -/
def fourNodes : Dict Nat (Finset Nat) :=
  ((((∅ : Dict Nat (Finset Nat)).set 4 {2, 3}).set 1 {2}).set 2 {1}).set 3 {3}

theorem cycles_components_four :
    ∃ found, cycles 10 [4, 1, 2, 3] fourNodes = .ok (some found) ∧ found.SortedLT ∧
      ∀ l, l ∈ found ↔ IsCycle fourNodes [4, 1, 2, 3] l :=
  cycles_components (by simp [Defined, fourNodes, Dict.get?_set]) (by decide)

example : cycles 10 [4, 1, 2, 3] fourNodes = .ok (some [[1, 2], [3]]) := by decide +kernel

end Dsl41.Derive
