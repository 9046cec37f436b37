import Mathlib.Data.String.Basic
import Dsl41.Derive.Components
import Dsl41.Oracle.Catalog

/-!
# Chains

`_chains`: the runs of nodes in which each is the only successor of the one before, which is its only
predecessor. `chains_maximal` reads off what the loop returns; the reason that no run is dropped is
that a link neither enters nor leaves a cycle, so a run goes back to a node that continues none.
-/

namespace Dsl41.Derive

open Infra

variable {ν : Type} [LinearOrder ν]

/-- `next(iter(s)) if len(s) == 1 else None`. -/
def only (s : Finset ν) : Option ν := if s.card = 1 then (sorted s).head? else none

section Model

variable (preds succs : Dict ν (Finset ν))

def linked (a b : ν) : Except Fault Bool := do
  if (← item succs a) = {b} then return decide ((← item preds b) = {a}) else return false

def starts (node : ν) : Except Fault Bool := do
  match only (← item succs node) with
  | none => return false
  | some nxt => linked preds succs node nxt

def continues (node : ν) : Except Fault Bool := do
  match only (← item preds node) with
  | none => return false
  | some prev => linked preds succs prev node

/-- `while len(succs[current]) == 1`; none when the fuel does not last. -/
def extend (in_chain : Finset ν) : Nat → ν → List ν → Except Fault (Option (List ν))
  | 0, _, _ => .ok none
  | fuel + 1, current, chain => do
    match only (← item succs current) with
    | none => return some chain
    | some nxt =>
      if !(← linked preds succs current nxt) ∨ nxt ∈ in_chain ∨ chain.head? = some nxt then return some chain
      else extend in_chain fuel nxt (chain ++ [nxt])

/-- `for node in nodes`. -/
def chainsFrom (fuel : Nat) : List ν → List (List ν) → Finset ν → Except Fault (Option (List (List ν)))
  | [], chains, _ => .ok (some chains)
  | node :: nodes, chains, in_chain =>
    if node ∈ in_chain then chainsFrom fuel nodes chains in_chain
    else do
      let starts ← starts preds succs node
      let continues ← continues preds succs node
      if !starts ∨ continues then chainsFrom fuel nodes chains in_chain
      else
        match ← extend preds succs in_chain fuel node [node] with
        | none => return none
        | some chain =>
          if 2 ≤ chain.length then chainsFrom fuel nodes (chains ++ [chain]) (in_chain ∪ chain.toFinset)
          else chainsFrom fuel nodes chains in_chain

/-- `_chains`. -/
def chains (fuel : Nat) (nodes : List ν) (cycle_members : Finset ν) : Except Fault (Option (List (List ν))) :=
  chainsFrom preds succs fuel nodes [] cycle_members

end Model

variable {preds succs : Dict ν (Finset ν)} {nodes : List ν} {a b c v w : ν}

theorem only_eq_some {s : Finset ν} : only s = some v ↔ s = {v} := by
  unfold only
  split
  · next hone =>
    obtain ⟨w, rfl⟩ := Finset.card_eq_one.mp hone
    have hsorted : sorted {w} = [w] := rfl
    simp only [hsorted, List.head?_cons, Option.some.injEq, Finset.singleton_inj]
  · next hne =>
    refine iff_of_false (Option.some_ne_none v).symm fun heq => hne ?_
    rw [heq, Finset.card_singleton]

/-- The only successor of `a` is `b`, whose only predecessor is `a`. -/
def Linked (preds succs : Dict ν (Finset ν)) (a b : ν) : Prop := succs.get? a = some {b} ∧ preds.get? b = some {a}

instance : DecidableRel (Linked preds succs) := fun _ _ => inferInstanceAs (Decidable (_ ∧ _))

/-- Two maps of the nodes, each the converse of the other. -/
structure Converse (preds succs : Dict ν (Finset ν)) (nodes : List ν) : Prop where
  succs_defined : Defined succs nodes
  preds_defined : Defined preds nodes
  converse : ∀ a ∈ nodes, ∀ b ∈ nodes, Succ succs a b ↔ Succ preds b a

/-- At least two nodes in a row, each linked to the next, with no link into the first or out of the last. -/
structure Maximal (preds succs : Dict ν (Finset ν)) (l : List ν) : Prop where
  two : 2 ≤ l.length
  linked : l.IsChain (Linked preds succs)
  first : ∀ b ∈ l.head?, ∀ a, ¬Linked preds succs a b
  last : ∀ a ∈ l.getLast?, ∀ b, ¬Linked preds succs a b

/-! ## Links -/

theorem Linked.succ (h : Linked preds succs a b) : Succ succs a b := ⟨{b}, h.1, Finset.mem_singleton_self b⟩

theorem Linked.unique (h : Linked preds succs a b) (h' : Linked preds succs a c) : b = c :=
  Finset.singleton_inj.mp (Option.some.inj (h.1.symm.trans h'.1))

theorem Linked.unique_left (h : Linked preds succs a c) (h' : Linked preds succs b c) : a = b :=
  Finset.singleton_inj.mp (Option.some.inj (h.2.symm.trans h'.2))

/-- A node some path leads back to. -/
def OnCycle (succs : Dict ν (Finset ν)) (v : ν) : Prop := Relation.TransGen (Succ succs) v v

theorem Converse.right_mem (h : Converse preds succs nodes) (ha : a ∈ nodes) (hl : Linked preds succs a b) :
    b ∈ nodes := h.succs_defined.reaches ha (.single hl.succ)

theorem Converse.left_mem (h : Converse preds succs nodes) (hb : b ∈ nodes) (hl : Linked preds succs a b) :
    a ∈ nodes := by
  obtain ⟨c, hc, hall⟩ := h.preds_defined b hb
  refine hall a ?_
  rw [Option.some.inj (hc.symm.trans hl.2)]
  exact Finset.mem_singleton_self a

/-- A link does not leave a cycle. -/
theorem OnCycle.right (hl : Linked preds succs a b) (hcycle : OnCycle succs a) : OnCycle succs b := by
  obtain ⟨x, ⟨c, hc, hx⟩, hback⟩ := Relation.TransGen.head'_iff.mp hcycle
  rw [Option.some.inj (hc.symm.trans hl.1), Finset.mem_singleton] at hx
  exact Relation.TransGen.tail' (hx ▸ hback) hl.succ

/-- A link does not enter a cycle. -/
theorem OnCycle.left (h : Converse preds succs nodes) (hb : b ∈ nodes) (hl : Linked preds succs a b)
    (hcycle : OnCycle succs b) : OnCycle succs a := by
  obtain ⟨x, hback, hedge⟩ := Relation.TransGen.tail'_iff.mp hcycle
  have hx : x ∈ nodes := h.succs_defined.reaches hb hback
  obtain ⟨c, hc, hmem⟩ := (h.converse x hx b hb).mp hedge
  rw [Option.some.inj (hc.symm.trans hl.2), Finset.mem_singleton] at hmem
  exact Relation.TransGen.head' hl.succ (hmem ▸ hback)

/-- A list with two entries, each once, has another one than `v`. -/
theorem exists_ne_of_one_lt {l : List ν} (hnodup : l.Nodup) (hlong : 1 < l.length) : ∃ w ∈ l, w ≠ v := by
  by_contra! hall
  have hsub : l ⊆ [v] := fun w hw => List.mem_singleton.mpr (hall w hw)
  have hle := (hnodup.subperm hsub).length_le
  exact absurd hlong (not_lt_of_ge hle)

/-- The nodes that some path leads back to are those of the cycles. -/
theorem onCycle_iff (h : Defined succs nodes) (hv : v ∈ nodes) :
    OnCycle succs v ↔ ∃ l, IsCycle succs nodes l ∧ v ∈ l := by
  classical
  constructor
  · intro hcycle
    let l := sortedList (nodes.dedup.filter fun w => decide (Mutual (Succ succs) v w))
    have hmem : ∀ w, w ∈ l ↔ Mutual (Succ succs) v w := by
      intro w
      simp only [l, mem_sortedList, List.mem_filter, List.mem_dedup, decide_eq_true_eq]
      exact and_iff_right_of_imp fun hw => h.reaches hv hw.1
    have hsorted : l.SortedLT := sortedList_sortedLT ((List.nodup_dedup _).filter _)
    obtain ⟨x, hedge, hback⟩ := Relation.TransGen.head'_iff.mp hcycle
    refine ⟨l, ⟨hsorted, v, hv, hmem, ?_⟩, (hmem v).mpr .refl⟩
    by_cases heq : x = v
    · exact .inr (heq ▸ hedge)
    · -- two nodes of one component
      have hsub : [x, v].Subperm l := List.subperm_of_subset (by simp [heq]) (by
        intro w hw
        rcases List.mem_pair.mp hw with rfl | rfl
        · exact (hmem w).mpr ⟨.single hedge, hback⟩
        · exact (hmem w).mpr .refl)
      exact .inl hsub.length_le
  · rintro ⟨l, ⟨hsorted, u, -, hmem, hinside⟩, hvl⟩
    have hmutual : Mutual (Succ succs) u v := (hmem v).mp hvl
    rcases hinside with hlong | hself
    · obtain ⟨w, hw, hne⟩ := exists_ne_of_one_lt hsorted.nodup hlong (v := v)
      have hvw : Mutual (Succ succs) v w := hmutual.symm.trans ((hmem w).mp hw)
      exact ((Relation.reflTransGen_iff_eq_or_transGen.mp hvw.1).resolve_left hne).trans_left hvw.2
    · exact (Relation.TransGen.tail' hmutual.2 hself).trans_left hmutual.1

/-! ## The loops -/

theorem Converse.linked_eq (h : Converse preds succs nodes) (ha : a ∈ nodes) (hb : b ∈ nodes) :
    linked preds succs a b = .ok (decide (Linked preds succs a b)) := by
  obtain ⟨c, hc, -⟩ := h.succs_defined a ha
  obtain ⟨d, hd, -⟩ := h.preds_defined b hb
  simp only [linked, item, hc, hd, Infra.ok_bind, Linked, Option.some.injEq]
  split
  · next heq => simp only [heq, true_and]; rfl
  · next hne => simp only [hne, false_and, decide_false]; rfl

theorem Converse.starts_spec (h : Converse preds succs nodes) (hv : v ∈ nodes) :
    ∃ starts, Derive.starts preds succs v = .ok starts ∧ (starts = true ↔ ∃ b, Linked preds succs v b) := by
  obtain ⟨c, hc, hcs⟩ := h.succs_defined v hv
  simp only [starts, item, hc, Infra.ok_bind]
  cases honly : only c with
  | none =>
    refine ⟨false, rfl, iff_of_false Bool.false_ne_true fun h' => ?_⟩
    obtain ⟨b, hb⟩ := h'
    rw [only_eq_some.mpr (Option.some.inj (hc.symm.trans hb.1))] at honly
    cases honly
  | some nxt =>
    obtain rfl := only_eq_some.mp honly
    refine ⟨_, h.linked_eq hv (hcs nxt (Finset.mem_singleton_self nxt)), ?_⟩
    rw [decide_eq_true_eq]
    refine ⟨fun hl => ⟨nxt, hl⟩, fun h' => ?_⟩
    obtain ⟨b, hb⟩ := h'
    rwa [Finset.singleton_inj.mp (Option.some.inj (hc.symm.trans hb.1))]

theorem Converse.continues_spec (h : Converse preds succs nodes) (hv : v ∈ nodes) :
    ∃ continues, Derive.continues preds succs v = .ok continues ∧
      (continues = true ↔ ∃ a, Linked preds succs a v) := by
  obtain ⟨d, hd, hds⟩ := h.preds_defined v hv
  simp only [continues, item, hd, Infra.ok_bind]
  cases honly : only d with
  | none =>
    refine ⟨false, rfl, iff_of_false Bool.false_ne_true fun h' => ?_⟩
    obtain ⟨a, ha⟩ := h'
    rw [only_eq_some.mpr (Option.some.inj (hd.symm.trans ha.2))] at honly
    cases honly
  | some prev =>
    obtain rfl := only_eq_some.mp honly
    refine ⟨_, h.linked_eq (hds prev (Finset.mem_singleton_self prev)) hv, ?_⟩
    rw [decide_eq_true_eq]
    refine ⟨fun hl => ⟨prev, hl⟩, fun h' => ?_⟩
    obtain ⟨a, ha⟩ := h'
    rwa [Finset.singleton_inj.mp (Option.some.inj (hd.symm.trans ha.2))]

/-- A run of nodes not taken yet, with no link into its first. -/
structure Growing (preds succs : Dict ν (Finset ν)) (nodes : List ν) (in_chain : Finset ν) (chain : List ν) : Prop where
  linked : chain.IsChain (Linked preds succs)
  inside : ∀ v ∈ chain, v ∈ nodes ∧ v ∉ in_chain
  first : ∀ b ∈ chain.head?, ∀ a, ¬Linked preds succs a b

/-- What the nodes not taken yet rely on: no link leads from them to a taken node, nor in a circle. -/
structure Free (preds succs : Dict ν (Finset ν)) (nodes : List ν) (in_chain : Finset ν) : Prop where
  back : ∀ a b, Linked preds succs a b → b ∈ nodes → b ∈ in_chain → a ∈ in_chain
  acyclic : ∀ v ∈ nodes, v ∉ in_chain → ¬OnCycle succs v

theorem Growing.nodup {in_chain : Finset ν} {chain : List ν} (h : Growing preds succs nodes in_chain chain)
    (hfree : Free preds succs nodes in_chain) : chain.Nodup :=
  nodup_of_isChain h.linked fun v hv hcycle =>
    hfree.acyclic v (h.inside v hv).1 (h.inside v hv).2 (Relation.TransGen.mono (fun _ _ => Linked.succ) _ _ hcycle)

/-- The run goes on until no link leads out of its last node. -/
theorem extend_spec {in_chain : Finset ν} (h : Converse preds succs nodes) (hfree : Free preds succs nodes in_chain) :
    ∀ (fuel : Nat) (front : List ν) (current : ν), Growing preds succs nodes in_chain (front ++ [current]) →
      nodes.toFinset.card < fuel + front.length →
      ∃ chain, extend preds succs in_chain fuel current (front ++ [current]) = .ok (some chain) ∧
        Growing preds succs nodes in_chain chain ∧ front ++ [current] <+: chain ∧
        ∀ a ∈ chain.getLast?, ∀ b, ¬Linked preds succs a b
  | 0, front, current, hgrow, hfuel => by
    have hsub : front ++ [current] ⊆ nodes.dedup := fun v hv => List.mem_dedup.mpr (hgrow.inside v hv).1
    have hle := ((hgrow.nodup hfree).subperm hsub).length_le
    rw [List.card_toFinset] at hfuel
    simp only [List.length_append, List.length_singleton] at hle
    omega
  | fuel + 1, front, current, hgrow, hfuel => by
    have hmem : current ∈ front ++ [current] := by simp
    obtain ⟨hcurrent, hout⟩ := hgrow.inside current hmem
    obtain ⟨c, hc, hcs⟩ := h.succs_defined current hcurrent
    have hlast : ∀ a ∈ (front ++ [current]).getLast?, a = current := by
      intro a ha
      rw [List.getLast?_concat] at ha
      exact (Option.some.inj ha).symm
    rw [extend]
    simp only [item, hc, Infra.ok_bind]
    cases honly : only c with
    | none =>
      refine ⟨_, rfl, hgrow, List.prefix_rfl, fun a ha b hl => ?_⟩
      rw [hlast a ha] at hl
      rw [only_eq_some.mpr (Option.some.inj (hc.symm.trans hl.1))] at honly
      cases honly
    | some nxt =>
      obtain rfl := only_eq_some.mp honly
      have hnxt : nxt ∈ nodes := hcs nxt (Finset.mem_singleton_self nxt)
      simp only [h.linked_eq hcurrent hnxt, Infra.ok_bind]
      by_cases hl : Linked preds succs current nxt
      · have hfresh : nxt ∉ in_chain := fun hin => hout (hfree.back current nxt hl hnxt hin)
        have hfirst : (front ++ [current]).head? ≠ some nxt := fun heq => hgrow.first nxt heq current hl
        rw [if_neg (by rw [decide_eq_true hl]; exact fun hor => hor.elim Bool.false_ne_true fun hor => hor.elim hfresh hfirst)]
        have hgrow' : Growing preds succs nodes in_chain (front ++ [current] ++ [nxt]) :=
          { linked := hgrow.linked.append (List.isChain_singleton _) fun x hx y hy => by
              rw [hlast x hx, ← Option.some.inj hy]
              exact hl
            inside := fun v hv => by
              rcases List.mem_append.mp hv with hv | hv
              · exact hgrow.inside v hv
              · rw [List.mem_singleton.mp hv]
                exact ⟨hnxt, hfresh⟩
            first := by
              rw [List.head?_append_of_ne_nil _ (by simp)]
              exact hgrow.first }
        obtain ⟨chain, hextend, hgrown, hprefix, hend⟩ := extend_spec h hfree fuel (front ++ [current]) nxt hgrow' (by
          rw [List.length_append, List.length_singleton]
          omega)
        exact ⟨chain, hextend, hgrown, (List.prefix_append _ _).trans hprefix, hend⟩
      · rw [if_pos (by simp [hl])]
        refine ⟨_, rfl, hgrow, List.prefix_rfl, fun a ha b hl' => hl ?_⟩
        rw [hlast a ha] at hl'
        rwa [Finset.singleton_inj.mp (Option.some.inj (hc.symm.trans hl'.1))]

/-- The chains found so far: what is taken, and that no head that was passed has been dropped. -/
structure Grouped (preds succs : Dict ν (Finset ν)) (members : Finset ν) (seen : List ν) (found : List (List ν))
    (in_chain : Finset ν) : Prop where
  taken : ∀ v, v ∈ in_chain ↔ v ∈ members ∨ ∃ l ∈ found, v ∈ l
  maximal : ∀ l ∈ found, Maximal preds succs l ∧ l.Nodup
  disjoint : found.Pairwise List.Disjoint
  heads : ∀ v ∈ seen, v ∉ members → (∃ b, Linked preds succs v b) → (∀ a, ¬Linked preds succs a v) →
    ∃ l ∈ found, v ∈ l

variable {members in_chain : Finset ν} {seen : List ν} {found : List (List ν)}

/-- A link into a chain comes from the chain. -/
theorem Maximal.back {l : List ν} (h : Maximal preds succs l) (hl : Linked preds succs a b) (hb : b ∈ l) : a ∈ l := by
  rcases head_or_edge h.linked hb with hfirst | ⟨u, hu, hub⟩
  · exact absurd hl (h.first b hfirst a)
  · rwa [hl.unique_left hub]

/-- A link out of a node of a chain is a step of the chain. -/
theorem Maximal.next {l : List ν} (h : Maximal preds succs l) (hl : Linked preds succs a b) (ha : a ∈ l) :
    [a, b] <:+: l := by
  rcases last_or_edge h.linked ha with hlast | ⟨w, hw, hinfix⟩
  · exact absurd hl (h.last a hlast b)
  · rwa [hl.unique hw]

theorem Grouped.free (h : Converse preds succs nodes) (hmembers : ∀ v ∈ nodes, v ∈ members ↔ OnCycle succs v)
    (hgroup : Grouped preds succs members seen found in_chain) : Free preds succs nodes in_chain where
  back := fun a b hl hb hin => by
    rw [hgroup.taken] at hin ⊢
    rcases hin with hin | ⟨l, hmem, hin⟩
    · have hcycle : OnCycle succs a := OnCycle.left h hb hl ((hmembers b hb).mp hin)
      exact .inl ((hmembers a (h.left_mem hb hl)).mpr hcycle)
    · exact .inr ⟨l, hmem, (hgroup.maximal l hmem).1.back hl hin⟩
  acyclic := fun v hv hout hcycle => hout ((hgroup.taken v).mpr (.inl ((hmembers v hv).mpr hcycle)))

/-- A node that is taken, or is no head, needs no chain of its own. -/
theorem Grouped.pass (hgroup : Grouped preds succs members seen found in_chain)
    (hskip : v ∈ in_chain ∨ ¬((∃ b, Linked preds succs v b) ∧ ∀ a, ¬Linked preds succs a v)) :
    Grouped preds succs members (v :: seen) found in_chain :=
  { hgroup with
    heads := fun u hu hout hstarts hfirst => by
      rcases List.mem_cons.mp hu with rfl | hu
      · rcases hskip with hin | hno
        · exact ((hgroup.taken u).mp hin).resolve_left hout
        · exact absurd ⟨hstarts, hfirst⟩ hno
      · exact hgroup.heads u hu hout hstarts hfirst }

theorem Grouped.add {l : List ν} (hgroup : Grouped preds succs members seen found in_chain)
    (hmax : Maximal preds succs l) (hnodup : l.Nodup) (hfresh : ∀ u ∈ l, u ∉ in_chain) (hv : v ∈ l) :
    Grouped preds succs members (v :: seen) (found ++ [l]) (in_chain ∪ l.toFinset) where
  taken := fun u => by
    simp only [Finset.mem_union, hgroup.taken, List.mem_toFinset, List.mem_append, List.mem_singleton, or_and_right,
      exists_or, exists_eq_left, or_assoc]
  maximal := fun l' hl' => by
    rcases List.mem_append.mp hl' with hl' | hl'
    · exact hgroup.maximal l' hl'
    · rw [List.mem_singleton.mp hl']
      exact ⟨hmax, hnodup⟩
  disjoint := by
    refine List.pairwise_append.mpr ⟨hgroup.disjoint, List.pairwise_singleton _ _, fun l' hl' m hm u hu hu' => ?_⟩
    rw [List.mem_singleton.mp hm] at hu'
    exact hfresh u hu' ((hgroup.taken u).mpr (.inr ⟨l', hl', hu⟩))
  heads := fun u hu hout hstarts hfirst => by
    rcases List.mem_cons.mp hu with rfl | hu
    · exact ⟨l, by simp, hv⟩
    · obtain ⟨l', hl', hmem⟩ := hgroup.heads u hu hout hstarts hfirst
      exact ⟨l', List.mem_append_left _ hl', hmem⟩

/-- The loop over the nodes. -/
theorem chainsFrom_spec {fuel : Nat} (h : Converse preds succs nodes)
    (hmembers : ∀ v ∈ nodes, v ∈ members ↔ OnCycle succs v) (hfuel : nodes.toFinset.card < fuel) :
    ∀ (left seen : List ν) (found : List (List ν)) (in_chain : Finset ν), (∀ v ∈ left, v ∈ nodes) →
      Grouped preds succs members seen found in_chain →
      ∃ out taken seen', chainsFrom preds succs fuel left found in_chain = .ok (some out) ∧
        Grouped preds succs members seen' out taken ∧ ∀ v, v ∈ seen ∨ v ∈ left → v ∈ seen'
  | [], seen, found, in_chain, _, hgroup =>
    ⟨found, in_chain, seen, rfl, hgroup, fun _ hv => hv.resolve_right List.not_mem_nil⟩
  | node :: left, seen, found, in_chain, hleft, hgroup => by
    have hnode : node ∈ nodes := hleft node List.mem_cons_self
    have hrest : ∀ v ∈ left, v ∈ nodes := fun v hv => hleft v (List.mem_cons_of_mem _ hv)
    have hseen : ∀ {seen' : List ν}, (∀ v, v ∈ node :: seen ∨ v ∈ left → v ∈ seen') →
        ∀ v, v ∈ seen ∨ v ∈ node :: left → v ∈ seen' := by
      intro seen' hall v hv
      refine hall v ?_
      rcases hv with hv | hv
      · exact .inl (List.mem_cons_of_mem _ hv)
      · rcases List.mem_cons.mp hv with rfl | hv
        · exact .inl List.mem_cons_self
        · exact .inr hv
    have hfree := hgroup.free h hmembers
    rw [chainsFrom]
    by_cases hin : node ∈ in_chain
    · obtain ⟨out, taken, seen', heq, hout, hall⟩ :=
        chainsFrom_spec h hmembers hfuel left (node :: seen) found in_chain hrest (hgroup.pass (.inl hin))
      exact ⟨out, taken, seen', (if_pos hin).trans heq, hout, hseen hall⟩
    · rw [if_neg hin]
      obtain ⟨starts, hstarts, hsiff⟩ := h.starts_spec hnode
      obtain ⟨continues, hcontinues, hciff⟩ := h.continues_spec hnode
      simp only [hstarts, hcontinues, Infra.ok_bind]
      by_cases hhead : (∃ b, Linked preds succs node b) ∧ ∀ a, ¬Linked preds succs a node
      · have hcond : ¬((!starts) = true ∨ continues = true) := by
          rw [hciff, Bool.not_eq_true', ← Bool.not_eq_true, hsiff, not_or, not_not, not_exists]
          exact hhead
        rw [if_neg hcond]
        have hgrow : Growing preds succs nodes in_chain ([] ++ [node]) :=
          { linked := List.isChain_singleton _
            inside := fun v hv => by
              rw [List.mem_singleton.mp hv]
              exact ⟨hnode, hin⟩
            first := fun b hb => Option.some.inj hb ▸ hhead.2 }
        obtain ⟨chain, hextend, hgrown, hbegins, hlast⟩ :=
          extend_spec h hfree fuel [] node hgrow (by simpa using hfuel)
        have hmem : node ∈ chain := hbegins.subset (List.mem_singleton_self node)
        have htwo : 2 ≤ chain.length := by
          -- the link out of the head keeps it from being the last
          obtain ⟨b, hb⟩ := hhead.1
          rcases last_or_edge hgrown.linked hmem with hend | ⟨w, -, hinfix⟩
          · exact absurd hb (hlast node hend b)
          · exact hinfix.length_le
        have hmax : Maximal preds succs chain := ⟨htwo, hgrown.linked, hgrown.first, hlast⟩
        obtain ⟨out, taken, seen', heq, hout, hall⟩ := chainsFrom_spec h hmembers hfuel left (node :: seen)
          (found ++ [chain]) (in_chain ∪ chain.toFinset) hrest
          (hgroup.add hmax (hgrown.nodup hfree) (fun u hu => (hgrown.inside u hu).2) hmem)
        refine ⟨out, taken, seen', ?_, hout, hseen hall⟩
        rw [List.nil_append] at hextend
        simp only [hextend, Infra.ok_bind]
        exact (if_pos htwo).trans heq
      · have hcond : (!starts) = true ∨ continues = true := by
          rw [hciff, Bool.not_eq_true', ← Bool.not_eq_true, hsiff]
          by_contra hno
          exact hhead ⟨not_not.mp (not_or.mp hno).1, not_exists.mp (not_or.mp hno).2⟩
        obtain ⟨out, taken, seen', heq, hout, hall⟩ :=
          chainsFrom_spec h hmembers hfuel left (node :: seen) found in_chain hrest (hgroup.pass (.inr hhead))
        exact ⟨out, taken, seen', (if_pos hcond).trans heq, hout, hseen hall⟩

/-- Every link off the cycles is a step of a chain, once the heads all have one. -/
theorem Grouped.step (h : Converse preds succs nodes) (hmembers : ∀ v ∈ nodes, v ∈ members ↔ OnCycle succs v)
    (hgroup : Grouped preds succs members seen found in_chain) (hseen : ∀ v ∈ nodes, v ∈ seen)
    (ha : a ∈ nodes) (hl : Linked preds succs a b) (hout : a ∉ members) : ∃ l ∈ found, [a, b] <:+: l := by
  classical
  let free := nodes.toFinset.filter fun v => v ∉ members
  have hfree : ∀ v, v ∈ free ↔ v ∈ nodes ∧ v ∉ members := by simp [free]
  obtain ⟨first, hfirst, hreach, hnone⟩ := exists_source (r := Linked preds succs) (S := free) (b := a)
    (fun v hv hcycle => ((hfree v).mp hv).2
      ((hmembers v ((hfree v).mp hv).1).mpr (Relation.TransGen.mono (fun _ _ => Linked.succ) _ _ hcycle)))
    (fun u v huv hv => by
      obtain ⟨hv, hvout⟩ := (hfree v).mp hv
      have hu : u ∈ nodes := h.left_mem hv huv
      refine (hfree u).mpr ⟨hu, fun hin => hvout ((hmembers v hv).mpr ?_)⟩
      exact ((hmembers u hu).mp hin).right huv)
    ((hfree a).mpr ⟨ha, hout⟩)
  obtain ⟨hnode, hnout⟩ := (hfree first).mp hfirst
  have hstarts : ∃ c, Linked preds succs first c := by
    rcases Relation.ReflTransGen.cases_head hreach with heq | ⟨c, hc, -⟩
    · exact ⟨b, heq ▸ hl⟩
    · exact ⟨c, hc⟩
  obtain ⟨l, hmem, hin⟩ := hgroup.heads first (hseen first hnode) hnout hstarts hnone
  have hmax := (hgroup.maximal l hmem).1
  have hal : a ∈ l :=
    mem_of_reaches (P := (· ∈ l)) (fun u hu v huv => (hmax.next huv hu).subset (by simp)) hreach hin
  exact ⟨l, hmem, hmax.next hl hal⟩

/-- The chains are disjoint, each is maximal, and each link off the cycles is a step of one of them. -/
theorem chains_maximal (h : Converse preds succs nodes) {fuel rounds : Nat} (hfuel : Search.total succs nodes < fuel)
    (hrounds : nodes.toFinset.card < rounds) :
    ∃ sccs found, cycles fuel nodes succs = .ok (some sccs) ∧
      chains preds succs rounds nodes sccs.flatten.toFinset = .ok (some found) ∧
      found.Pairwise List.Disjoint ∧ (∀ l ∈ found, Maximal preds succs l ∧ l.Nodup) ∧
      ∀ a ∈ nodes, ∀ b, Linked preds succs a b → a ∉ sccs.flatten → b ∉ sccs.flatten →
        ∃! l, l ∈ found ∧ [a, b] <:+: l := by
  obtain ⟨s, hroots, -, hcycles⟩ := roots_cycles h.succs_defined hfuel
  let members := (sortedList s.result).flatten.toFinset
  have hmembers : ∀ v ∈ nodes, v ∈ members ↔ OnCycle succs v := by
    intro v hv
    simp only [members, List.mem_toFinset, List.mem_flatten, mem_sortedList, hcycles, onCycle_iff h.succs_defined hv]
  have hstart : Grouped preds succs members [] [] members :=
    { taken := fun v => by simp
      maximal := fun _ hl => absurd hl List.not_mem_nil
      disjoint := .nil
      heads := fun _ hv => by simp at hv }
  obtain ⟨found, taken, seen, hchains, hgroup, hseen⟩ :=
    chainsFrom_spec h hmembers hrounds nodes [] [] members (fun _ hv => hv) hstart
  refine ⟨sortedList s.result, found, ?_, hchains, hgroup.disjoint, hgroup.maximal, fun a ha b hl hout _ => ?_⟩
  · rw [cycles, hroots]
    rfl
  · obtain ⟨l, hmem, hrun⟩ := hgroup.step h hmembers (fun v hv => hseen v (.inr hv)) ha hl
      (fun hin => hout (List.mem_toFinset.mp hin))
    refine ⟨l, ⟨hmem, hrun⟩, fun l' h' => ?_⟩
    obtain ⟨hmem', hrun'⟩ := h'
    by_contra hne
    have : Std.Symm (@List.Disjoint ν) := ⟨fun _ _ => List.Disjoint.symm⟩
    have hdisjoint : List.Disjoint l' l := hgroup.disjoint.forall hmem' hmem hne
    exact hdisjoint (hrun'.subset List.mem_cons_self) (hrun.subset List.mem_cons_self)

/-- A run of three nodes into a circle of two. -/
def runsIn : Dict Nat (Finset Nat) :=
  (((((∅ : Dict Nat (Finset Nat)).set 1 {2}).set 2 {3}).set 3 {4}).set 4 {5}).set 5 {4}

def runsOut : Dict Nat (Finset Nat) :=
  (((((∅ : Dict Nat (Finset Nat)).set 1 ∅).set 2 {1}).set 3 {2}).set 4 {3, 5}).set 5 {4}

theorem runs_converse : Converse runsOut runsIn [2, 1, 3, 4, 5] where
  succs_defined := by simp [Defined, runsIn, Dict.get?_set]
  preds_defined := by simp [Defined, runsOut, Dict.get?_set]
  converse := by simp [Succ, runsIn, runsOut, Dict.get?_set]

theorem chains_maximal_runs :
    ∃ sccs found, cycles 11 [2, 1, 3, 4, 5] runsIn = .ok (some sccs) ∧
      chains runsOut runsIn 6 [2, 1, 3, 4, 5] sccs.flatten.toFinset = .ok (some found) ∧
      found.Pairwise List.Disjoint ∧ (∀ l ∈ found, Maximal runsOut runsIn l ∧ l.Nodup) ∧
      ∀ a ∈ [2, 1, 3, 4, 5], ∀ b, Linked runsOut runsIn a b → a ∉ sccs.flatten → b ∉ sccs.flatten →
        ∃! l, l ∈ found ∧ [a, b] <:+: l :=
  chains_maximal runs_converse (by decide) (by decide)

example : chains runsOut runsIn 6 [2, 1, 3, 4, 5] {4, 5} = .ok (some [[1, 2, 3]]) := by decide +kernel

/-! ## The start gates of a catalog -/

inductive Via where
  | success | failure | done | terminated | notrunning | exitcode | global
deriving DecidableEq

/-- A derived edge, without its provenance. -/
structure DerivedEdge where
  dst : String
  via : Via
  atom : Oracle.Atom
  mapping_row : String

def DerivedEdge.isStartGate (e : DerivedEdge) : Bool := e.via ≠ .global ∧ e.mapping_row ∉ ["M15", "M16"]

/-- `local_producer`: the job of the catalog that the edge's atom names. -/
def localProducer (e : DerivedEdge) (catalog : Oracle.CatalogIR) : Option String :=
  e.atom.localJob.filter fun name => (catalog.jobs.get? name).isSome

/-- One edge of the loop of `_local_condition_adjacency`. -/
def addEdge (catalog : Oracle.CatalogIR) (maps : Dict String (Finset String) × Dict String (Finset String))
    (e : DerivedEdge) : Except Fault (Dict String (Finset String) × Dict String (Finset String)) :=
  if !e.isStartGate then .ok maps
  else
    match localProducer e catalog with
    | none => .ok maps
    | some src => do
      let preds := maps.1.set e.dst (insert src (← item maps.1 e.dst))
      let succs := maps.2.set src (insert e.dst (← item maps.2 src))
      return (preds, succs)

/-- `_local_condition_adjacency`: the predecessors and the successors. -/
def localConditionAdjacency (catalog : Oracle.CatalogIR) (edges : List DerivedEdge) :
    Except Fault (Dict String (Finset String) × Dict String (Finset String)) :=
  edges.foldlM (addEdge catalog) (catalog.jobs.mapValues fun _ => ∅, catalog.jobs.mapValues fun _ => ∅)

theorem Defined.insert (h : Defined succs nodes) (hc : succs.get? a = some s) (hb : b ∈ nodes) :
    Defined (succs.set a (insert b s)) nodes := by
  intro v hv
  rw [Dict.get?_set]
  split
  · next heq =>
    obtain ⟨c, hc', hall⟩ := h v hv
    rw [heq, hc] at hc'
    refine ⟨_, rfl, fun w hw => ?_⟩
    rcases Finset.mem_insert.mp hw with rfl | hw
    · exact hb
    · exact hall w (Option.some.inj hc' ▸ hw)
  · exact h v hv

theorem succ_insert {s : Finset ν} (hc : succs.get? a = some s) :
    Succ (succs.set a (insert b s)) v w ↔ (v = a ∧ w = b) ∨ Succ succs v w := by
  unfold Succ
  rw [Dict.get?_set]
  split
  · next heq => simp [heq, hc]
  · next hne => simp [hne]

/-- An edge that goes into both maps keeps them converse. -/
theorem Converse.insert {p s : Finset ν} (h : Converse preds succs nodes) (ha : a ∈ nodes) (hb : b ∈ nodes)
    (hp : preds.get? b = some p) (hs : succs.get? a = some s) :
    Converse (preds.set b (insert a p)) (succs.set a (insert b s)) nodes where
  succs_defined := h.succs_defined.insert hs hb
  preds_defined := h.preds_defined.insert hp ha
  converse := fun u hu v hv => by
    rw [succ_insert hs, succ_insert hp, h.converse u hu v hv, and_comm]

/-- The maps that `_chains` is given are converse. -/
theorem localConditionAdjacency_converse {catalog : Oracle.CatalogIR} {edges : List DerivedEdge}
    (hdst : ∀ e ∈ edges, e.dst ∈ catalog.jobs.keys) :
    ∃ preds succs, localConditionAdjacency catalog edges = .ok (preds, succs) ∧
      Converse preds succs catalog.jobs.keys := by
  have hloop : ∀ (edges : List DerivedEdge) (preds succs : Dict String (Finset String)),
      (∀ e ∈ edges, e.dst ∈ catalog.jobs.keys) → Converse preds succs catalog.jobs.keys →
      ∃ preds' succs', edges.foldlM (addEdge catalog) (preds, succs) = .ok (preds', succs') ∧
        Converse preds' succs' catalog.jobs.keys := by
    intro edges
    induction edges with
    | nil => exact fun preds succs _ h => ⟨preds, succs, rfl, h⟩
    | cons e edges ih =>
      intro preds succs hdst h
      have hrest : ∀ e ∈ edges, e.dst ∈ catalog.jobs.keys := fun e he => hdst e (List.mem_cons_of_mem _ he)
      rw [List.foldlM_cons]
      cases hgate : e.isStartGate with
      | false =>
        rw [addEdge, hgate]
        exact ih preds succs hrest h
      | true =>
        cases hsrc : localProducer e catalog with
        | none =>
          rw [addEdge, hgate, hsrc]
          exact ih preds succs hrest h
        | some src =>
          obtain ⟨-, hjob⟩ := Option.filter_eq_some_iff.mp hsrc
          have ha : src ∈ catalog.jobs.keys := Dict.mem_keys.mpr (Option.isSome_iff_exists.mp hjob)
          have hb : e.dst ∈ catalog.jobs.keys := hdst e List.mem_cons_self
          obtain ⟨p, hp, -⟩ := h.preds_defined e.dst hb
          obtain ⟨s, hs, -⟩ := h.succs_defined src ha
          have hadd : addEdge catalog (preds, succs) e =
              .ok (preds.set e.dst (insert src p), succs.set src (insert e.dst s)) := by
            simp only [addEdge, hgate, hsrc, item, hp, hs, Infra.ok_bind]
            rfl
          rw [hadd]
          exact ih _ _ hrest (h.insert ha hb hp hs)
  have hempty : Defined (catalog.jobs.mapValues fun _ => (∅ : Finset String)) catalog.jobs.keys := by
    intro v hv
    obtain ⟨ir, hir⟩ := Dict.mem_keys.mp hv
    exact ⟨∅, by rw [Dict.get?_mapValues, hir]; rfl, fun w hw => absurd hw (Finset.notMem_empty w)⟩
  exact hloop edges _ _ hdst ⟨hempty, hempty, fun a _ b _ => by simp [Succ]⟩

end Dsl41.Derive
