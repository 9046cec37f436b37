import Dsl41.Infra.Result
import Dsl41.StateMachine.Tree

/-!
# Paths, exits, entries and domains

What the walks of the index compute, in the terms of the hierarchy.

* `mem_path` — a path lists the ancestors
* `exitOrder_ok` — an exit order is the active subtree
* `entryOrder_complete` — an entry order is a complete configuration of its subtree
* `domain_spec` — a row leaves and enters the same region
-/

namespace Dsl41.StateMachine.Index

open Infra

variable {ix : Index}

/-! ## Paths -/

theorem pathFrom_congr (hs : ix.Sound) : ∀ (n m : Nat) {s : Name}, s ∈ ix.order →
    ix.depth s ≤ n → ix.depth s ≤ m → ix.pathFrom n s = ix.pathFrom m s := by
  intro n
  induction n with
  | zero =>
    intro m s h hn _
    have hp : ix.parent s = none := by
      cases hp : ix.parent s with
      | none => rfl
      | some p =>
        have := (ix.hierarchy hs).depth_parent h hp
        simp only [hierarchy] at this
        omega
    cases m with
    | zero => rfl
    | succ m => simp [pathFrom, hp]
  | succ n ih =>
    intro m s h hn hm
    cases hp : ix.parent s with
    | none => cases m <;> simp [pathFrom, hp]
    | some p =>
      have hd : ix.depth s = ix.depth p + 1 := (ix.hierarchy hs).depth_parent h hp
      have hpo : p ∈ ix.order := (Hierarchy.parent_declared_of (H := ix.hierarchy hs) h hp).1
      cases m with
      | zero => omega
      | succ m =>
        simp only [pathFrom, hp]
        rw [ih m hpo (by omega) (by omega)]

/-- The path of a declared state, unfolded once. -/
theorem path_eq (hs : ix.Sound) {s : Name} (h : s ∈ ix.order) :
    ix.path s = s :: (match ix.parent s with | some p => ix.path p | none => []) := by
  have hlt := depth_lt_height hs h
  obtain ⟨n, hn⟩ : ∃ n, ix.height = n + 1 := ⟨_, rfl⟩
  rw [path, hn, pathFrom]
  cases hp : ix.parent s with
  | none => rfl
  | some p =>
    have hpo : p ∈ ix.order := (Hierarchy.parent_declared_of (H := ix.hierarchy hs) h hp).1
    have hd : ix.depth s = ix.depth p + 1 := (ix.hierarchy hs).depth_parent h hp
    simp only [path, hn]
    rw [pathFrom_congr hs n (n + 1) hpo (by omega) (by omega)]

theorem path_of_parent (hs : ix.Sound) {s p : Name} (h : s ∈ ix.order)
    (hp : ix.parent s = some p) : ix.path s = s :: ix.path p := by rw [path_eq hs h, hp]

/-- **A path lists the state and its ancestors.** -/
theorem mem_path (hs : ix.Sound) {s x : Name} (h : s ∈ ix.order) :
    x ∈ ix.path s ↔ (ix.hierarchy hs).Sub x s := by
  rw [path_eq hs h, List.mem_cons, Hierarchy.sub_iff]
  cases hp : ix.parent s with
  | none =>
    have hn : (ix.hierarchy hs).parent s = none := hp
    simp [hn, eq_comm]
  | some p =>
    have hpo : p ∈ ix.order := (Hierarchy.parent_declared_of (H := ix.hierarchy hs) h hp).1
    have hd : ix.depth s = ix.depth p + 1 := (ix.hierarchy hs).depth_parent h hp
    simp only
    rw [mem_path hs hpo, eq_comm]
    refine or_congr_right ⟨fun hx => ⟨p, hp, hx⟩, ?_⟩
    rintro ⟨q, hq, hx⟩
    rw [show (ix.hierarchy hs).parent s = some p from hp] at hq
    cases hq; exact hx
termination_by ix.depth s

theorem path_nodup (hs : ix.Sound) {s : Name} (h : s ∈ ix.order) : (ix.path s).Nodup := by
  rw [path_eq hs h]
  cases hp : ix.parent s with
  | none => exact List.nodup_singleton s
  | some p =>
    have hpo : p ∈ ix.order := (Hierarchy.parent_declared_of (H := ix.hierarchy hs) h hp).1
    have hd : ix.depth s = ix.depth p + 1 := (ix.hierarchy hs).depth_parent h hp
    rw [List.nodup_cons, mem_path hs hpo]
    exact ⟨Hierarchy.not_sub_parent (H := ix.hierarchy hs) h hp, path_nodup hs hpo⟩
termination_by ix.depth s

/-! ## Root-first paths -/

/-- The path of a state, root first. -/
def rootPath (ix : Index) (s : Name) : List Name := (ix.path s).reverse

theorem rootPath_of_parent (hs : ix.Sound) {s p : Name} (h : s ∈ ix.order)
    (hp : ix.parent s = some p) : ix.rootPath s = ix.rootPath p ++ [s] := by
  rw [rootPath, path_of_parent hs h hp, List.reverse_cons, rootPath]

theorem rootPath_root (hs : ix.Sound) : ix.rootPath ix.root = [ix.root] := by
  rw [rootPath, path_eq hs (root_mem hs), parent_root hs]; rfl

/-- `l` leads from just below `x` down to `s`, child by child. -/
def Down (ix : Index) : Name → List Name → Name → Prop
  | x, [], s => x = s
  | x, c :: l, s => c ∈ ix.order ∧ ix.parent c = some x ∧ Down ix c l s

theorem Down.snoc {s c : Name} (hc : c ∈ ix.order) (hp : ix.parent c = some s) :
    ∀ {l : List Name} {x : Name}, ix.Down x l s → ix.Down x (l ++ [c]) c
  | [], _, rfl => ⟨hc, hp, rfl⟩
  | _ :: _, _, ⟨h1, h2, h3⟩ => ⟨h1, h2, Down.snoc hc hp h3⟩

/-- Below an ancestor, a root-first path goes down child by child. -/
theorem rootPath_of_sub (hs : ix.Sound) {x s : Name} (h : s ∈ ix.order)
    (hx : (ix.hierarchy hs).Sub x s) : ∃ l, ix.rootPath s = ix.rootPath x ++ l ∧ ix.Down x l s := by
  rcases Hierarchy.sub_iff.mp hx with rfl | ⟨p, hp, hxp⟩
  · exact ⟨[], by simp, rfl⟩
  · have hp' : ix.parent s = some p := hp
    have hpo : p ∈ ix.order := (Hierarchy.parent_declared_of (H := ix.hierarchy hs) h hp).1
    have hd : ix.depth s = ix.depth p + 1 := (ix.hierarchy hs).depth_parent h hp
    obtain ⟨l, hl, hdown⟩ := rootPath_of_sub hs hpo hxp
    refine ⟨l ++ [s], ?_, hdown.snoc h hp'⟩
    rw [rootPath_of_parent hs h hp', hl, List.append_assoc]
termination_by ix.depth s

theorem rootPath_snoc (hs : ix.Sound) {s : Name} (h : s ∈ ix.order) :
    ∃ l, ix.rootPath s = l ++ [s] ∧ s ∉ l := by
  refine ⟨(ix.path s).tail.reverse, ?_, ?_⟩
  · rw [rootPath, path_eq hs h, List.tail_cons, List.reverse_cons]
  · have hnd := path_nodup hs h
    rw [path_eq hs h] at hnd ⊢
    simpa using (List.nodup_cons.mp hnd).1

theorem after_append {o : Name} : ∀ {l m : List Name}, o ∉ l → after (l ++ o :: m) o = m
  | [], m, _ => by simp [after]
  | a :: l, m, h => by
    rw [List.mem_cons, not_or] at h
    have ih := after_append (m := m) h.2
    unfold after at ih ⊢
    rw [List.cons_append, List.dropWhile_cons_of_pos (by simpa using fun e => h.1 e.symm)]
    exact ih

/-- What follows an ancestor in a root-first path. -/
theorem after_rootPath (hs : ix.Sound) {x s : Name} (h : s ∈ ix.order)
    (hx : (ix.hierarchy hs).Sub x s) :
    ix.rootPath s = ix.rootPath x ++ after (ix.rootPath s) x ∧
      ix.Down x (after (ix.rootPath s) x) s := by
  obtain ⟨l, hl, hdown⟩ := rootPath_of_sub hs h hx
  obtain ⟨m, hm, hni⟩ := rootPath_snoc hs (hx.declared h)
  have ha : after (ix.rootPath s) x = l := by
    rw [hl, hm, List.append_assoc]
    exact after_append hni
  rw [ha]
  exact ⟨hl, hdown⟩

/-- A prefix of a root-first path is the root-first path of its last state. -/
theorem rootPath_prefix (hs : ix.Sound) {s o : Name} {l m : List Name} (h : s ∈ ix.order)
    (hl : ix.rootPath s = l ++ o :: m) :
    (ix.hierarchy hs).Sub o s ∧ l ++ [o] = ix.rootPath o ∧ m = after (ix.rootPath s) o := by
  have hnd : (ix.rootPath s).Nodup := List.nodup_reverse.mpr (path_nodup hs h)
  have hmem : o ∈ ix.path s := by
    rw [← List.mem_reverse, ← rootPath, hl]; simp
  have hsub := (mem_path hs h).mp hmem
  have hni : o ∉ l := by
    rw [hl] at hnd
    intro ho
    exact (List.nodup_append.mp hnd).2.2 o ho o List.mem_cons_self rfl
  have ha : after (ix.rootPath s) o = m := by rw [hl]; exact after_append hni
  refine ⟨hsub, ?_, ha.symm⟩
  have hdec := (after_rootPath hs h hsub).1
  rw [ha] at hdec
  refine List.append_cancel_right (show l ++ [o] ++ m = ix.rootPath o ++ m from ?_)
  rw [← hdec, hl, List.append_assoc]; rfl

/-- Inside the region that holds `o`, the path to a state below `o` starts with `o`. -/
theorem entryPath_parent (hs : ix.Sound) {o t : Name} (h : t ∈ ix.order)
    (ho : (ix.hierarchy hs).Sub o t) :
    ix.entryPath (ix.parent o) t = o :: after (ix.rootPath t) o := by
  have hoo : o ∈ ix.order := ho.declared h
  obtain ⟨hdec, -⟩ := after_rootPath hs h ho
  cases hp : ix.parent o with
  | none =>
    have hr : o = ix.root := by
      rcases (ix.hierarchy hs).parent_declared hoo with hr | ⟨p, hp', -⟩
      · exact hr
      · rw [show (ix.hierarchy hs).parent o = none from hp] at hp'; cases hp'
    rw [hr, rootPath_root hs] at hdec
    simp only [entryPath]
    rw [hr]; exact hdec
  | some w =>
    rw [rootPath_of_parent hs hoo hp] at hdec
    obtain ⟨m, hm, hni⟩ := rootPath_snoc hs
      (Hierarchy.parent_declared_of (H := ix.hierarchy hs) hoo hp).1
    simp only [entryPath]
    change after (ix.rootPath t) w = _
    generalize after (ix.rootPath t) o = r at hdec ⊢
    rw [hdec, hm]
    simp only [List.append_assoc, List.cons_append, List.nil_append]
    rw [after_append hni]

/-! ## Exit orders -/

theorem mem_members {owner : Option Name} {slot : Nat} {s : Name} :
    s ∈ ix.members owner slot ↔ s ∈ ix.order ∧ ix.parent s = owner ∧ ix.slot s = slot := by
  simp [members, List.mem_insertionSort]

/-- A configuration of the chart. -/
def Legal (ix : Index) (hs : ix.Sound) (active : Finset Name) : Prop :=
  (ix.hierarchy hs).Legal {s | s ∈ active}

theorem activeChild_ok {hs : ix.Sound} {active : Finset Name} (hA : ix.Legal hs active)
    {s : Name} {i : Nat} (h : s ∈ active) (hi : i < (ix.regions s).length) :
    ∃ c, ix.activeChild active (some s) i = .ok c ∧
      (ix.hierarchy hs).ChildAt {x | x ∈ active} s i c := by
  obtain ⟨c, ⟨hc, hcp, hci⟩, huniq⟩ := hA.region h hi
  have hcm : c ∈ ix.members (some s) i := mem_members.mpr ⟨hA.declared hc, hcp, hci⟩
  cases hf : (ix.members (some s) i).find? (fun x => decide (x ∈ active)) with
  | none =>
    have := List.find?_eq_none.mp hf c hcm
    simp only [decide_eq_true_eq] at this
    exact absurd hc this
  | some d =>
    have hd := List.find?_some hf
    have hdm := mem_members.mp (List.mem_of_find?_eq_some hf)
    refine ⟨d, by rw [activeChild, hf], by simpa using hd, hdm.2.1, hdm.2.2⟩

/-- **The exit order of an active state is its active subtree.** -/
theorem exitOrderFrom_ok {hs : ix.Sound} {active : Finset Name} (hA : ix.Legal hs active) :
    ∀ (n : Nat) {s : Name}, s ∈ active → ix.height ≤ ix.depth s + n →
      ∃ l, ix.exitOrderFrom active n s = .ok l ∧
        ∀ x, x ∈ l ↔ x ∈ active ∧ (ix.hierarchy hs).Sub s x := by
  intro n
  induction n with
  | zero =>
    intro s h hn
    have := depth_lt_height hs (hA.declared h)
    omega
  | succ n ih =>
    intro s h hn
    have step : ∀ i ∈ List.range (ix.regions s).length, ∃ l,
        (do let child ← ix.activeChild active (some s) i
            ix.exitOrderFrom active n child) = .ok l ∧
        ∃ c, (ix.hierarchy hs).ChildAt {x | x ∈ active} s i c ∧
          ∀ x, x ∈ l ↔ x ∈ active ∧ (ix.hierarchy hs).Sub c x := by
      intro i hi
      obtain ⟨c, hc, hch⟩ := activeChild_ok hA h (List.mem_range.mp hi)
      have hd : ix.depth c = ix.depth s + 1 :=
        (ix.hierarchy hs).depth_parent (hA.declared hch.1) hch.2.1
      obtain ⟨l, hl, hmem⟩ := ih hch.1 (by omega)
      exact ⟨l, by rw [hc]; exact hl, c, hch, hmem⟩
    obtain ⟨ls, hls, hall⟩ := mapM_ok step
    refine ⟨ls.flatten ++ [s], by rw [exitOrderFrom, hls]; rfl, ?_⟩
    intro x
    rw [List.mem_append, List.mem_flatten, List.mem_singleton]
    constructor
    · rintro (⟨l, hl, hx⟩ | rfl)
      · obtain ⟨i, -, c, hch, hmem⟩ : ∃ i, i ∈ List.range (ix.regions s).length ∧ ∃ c,
            (ix.hierarchy hs).ChildAt {x | x ∈ active} s i c ∧
            ∀ x, x ∈ l ↔ x ∈ active ∧ (ix.hierarchy hs).Sub c x := by
          obtain ⟨k, hk, rfl⟩ := List.mem_iff_getElem.mp hl
          have hk' : k < (List.range (ix.regions s).length).length := hall.length_eq ▸ hk
          exact ⟨_, List.getElem_mem hk', hall.get hk' hk⟩
        obtain ⟨hxa, hcx⟩ := (hmem x).mp hx
        exact ⟨hxa, (Hierarchy.Sub.of_parent hch.2.1).trans hcx⟩
      · exact ⟨h, Hierarchy.Sub.refl⟩
    · rintro ⟨hxa, hsx⟩
      have hB := (hA.subtree (t := s) h)
      rcases hB.cases ⟨hxa, hsx⟩ with rfl | ⟨i, hi, c, hch, hcx⟩
      · exact Or.inr rfl
      · refine Or.inl ?_
        have hi' : i < (List.range (ix.regions s).length).length := by
          rw [List.length_range]; exact hi
        have hi'' : i < ls.length := hall.length_eq ▸ hi'
        obtain ⟨d, hdch, hmem⟩ := hall.get hi' hi''
        simp only [List.get_eq_getElem, List.getElem_range] at hdch hmem
        have hdc : d = c := (hA.region h hi).unique hdch ⟨hch.1.1, hch.2⟩
        exact ⟨_, List.getElem_mem hi'', (hmem x).mpr ⟨hxa, hdc ▸ hcx⟩⟩

theorem exitOrder_ok {hs : ix.Sound} {active : Finset Name} (hA : ix.Legal hs active)
    {s : Name} (h : s ∈ active) : ∃ l, ix.exitOrder active s = .ok l ∧
      ∀ x, x ∈ l ↔ x ∈ active ∧ (ix.hierarchy hs).Sub s x :=
  exitOrderFrom_ok hA ix.height h (Nat.le_add_left _ _)

/-! ## Entry orders -/

/-- Every region's initial state is one of its states. -/
def InitialsDeclared (ix : Index) : Prop :=
  ∀ s ∈ ix.order, ∀ r ∈ ix.regions s, r.initial ∈ r.states.map State.name

/-- **An entry order is a complete configuration of the subtree it enters.** -/
theorem entryOrderFrom_complete (hs : ix.Sound) (hi : ix.InitialsDeclared) :
    ∀ (n : Nat) {s t : Name} {down : List Name}, s ∈ ix.order → ix.Down s down t →
      ix.height ≤ ix.depth s + n →
      (ix.hierarchy hs).Complete s {x | x ∈ ix.entryOrderFrom n (s :: down)} := by
  intro n
  induction n with
  | zero =>
    intro s t down h _ hn
    have := depth_lt_height hs h
    omega
  | succ n ih =>
    intro s t down h hdown hn
    -- the path that is entered in region `i`
    let sub : Nat → List Name := fun i =>
      match down with
      | next :: _ => if ix.slot next = i then down else ((ix.regions s)[i]?.map (·.initial)).toList
      | [] => ((ix.regions s)[i]?.map (·.initial)).toList
    have hset : {x | x ∈ ix.entryOrderFrom (n + 1) (s :: down)} =
        {x | x = s ∨ ∃ i < (ix.regions s).length, x ∈ ix.entryOrderFrom n (sub i)} := by
      ext x
      simp only [entryOrderFrom, Set.mem_ofPred_eq, List.mem_cons, List.mem_flatMap, Prod.exists,
        List.mk_mem_zipIdx_iff_getElem?]
      refine or_congr_right ⟨?_, ?_⟩
      · rintro ⟨r, i, hr, hx⟩
        refine ⟨i, (List.getElem?_eq_some_iff.mp hr).1, ?_⟩
        cases down with
        | nil => simpa [sub, hr] using hx
        | cons c l =>
          simp only [sub, hr]
          by_cases hc : ix.slot c = i <;> simpa [hc] using hx
      · rintro ⟨i, hlt, hx⟩
        have hr : (ix.regions s)[i]? = some (ix.regions s)[i] := List.getElem?_eq_getElem hlt
        refine ⟨_, i, hr, ?_⟩
        cases down with
        | nil => simpa [sub, hr] using hx
        | cons c l =>
          simp only [sub, hr] at hx
          by_cases hc : ix.slot c = i <;> simpa [hc] using hx
    rw [hset]
    refine Hierarchy.Complete.node (H := ix.hierarchy hs) (c := fun i => (sub i).headD s)
      (C := fun i => {x | x ∈ ix.entryOrderFrom n (sub i)}) h ?_
    intro i hlt
    have hr : (ix.regions s)[i]? = some (ix.regions s)[i] := List.getElem?_eq_getElem hlt
    have hinit := hi s h _ (List.getElem_mem hlt)
    obtain ⟨hio, hip, his, hid⟩ := child_of_region hs h hr hinit
    have default : sub i = [(ix.regions s)[i].initial] →
        (ix.hierarchy hs).parent ((sub i).headD s) = some s ∧
        (ix.hierarchy hs).slot ((sub i).headD s) = i ∧
        (ix.hierarchy hs).Complete ((sub i).headD s) {x | x ∈ ix.entryOrderFrom n (sub i)} := by
      intro hsub
      rw [hsub]
      exact ⟨hip, his, ih (s := (ix.regions s)[i].initial) (t := (ix.regions s)[i].initial)
        hio rfl (by omega)⟩
    cases down with
    | nil => exact default (by simp [sub, hr])
    | cons c l =>
      by_cases hc : ix.slot c = i
      · have hsub : sub i = c :: l := by simp [sub, hc]
        obtain ⟨hco, hcp, hrest⟩ := hdown
        have hd : ix.depth c = ix.depth s + 1 := (ix.hierarchy hs).depth_parent hco hcp
        rw [hsub]
        exact ⟨hcp, hc, ih (s := c) hco hrest (by omega)⟩
      · exact default (by simp [sub, hc, hr])

theorem entryOrder_complete (hs : ix.Sound) (hi : ix.InitialsDeclared) {s t : Name}
    {down : List Name} (h : s ∈ ix.order) (hd : ix.Down s down t) :
    (ix.hierarchy hs).Complete s {x | x ∈ ix.entryOrder (s :: down)} :=
  entryOrderFrom_complete hs hi ix.height h hd (Nat.le_add_left _ _)

/-- **The initial entry enters a configuration.** -/
theorem initialEntry_legal (hs : ix.Sound) (hi : ix.InitialsDeclared) :
    (ix.hierarchy hs).Legal {x | x ∈ ix.initialEntry} :=
  Hierarchy.complete_root_iff.mp (entryOrder_complete hs hi (t := ix.root) (root_mem hs) rfl)

/-! ## Domains -/

theorem commonAll_prefix : ∀ (p : List Name) (others : List (List Name)), ∃ l q,
    p = l ++ q ∧ l.length = commonAll p others ∧ ∀ o ∈ others, ∃ r, o = l ++ r
  | [], others => ⟨[], [], rfl, by simp [commonAll], fun o _ => ⟨o, rfl⟩⟩
  | a :: as, others => by
    by_cases h : others.all (·.head? = some a)
    · obtain ⟨l, q, hq, hlen, hall⟩ := commonAll_prefix as (others.map List.tail)
      refine ⟨a :: l, q, by rw [hq]; rfl, by simp [commonAll, h, hlen], ?_⟩
      intro o ho
      have hh : o.head? = some a := by simpa using List.all_eq_true.mp h o ho
      obtain ⟨r, hr⟩ := hall o.tail (List.mem_map_of_mem ho)
      exact ⟨r, by rw [← List.cons_head?_tail hh, hr]; rfl⟩
    · exact ⟨[], a :: as, rfl, by simp [commonAll, h], fun o _ => ⟨o, rfl⟩⟩

theorem commonAll_pos {a : Name} {p : List Name} {others : List (List Name)}
    (hp : p.head? = some a) (h : ∀ o ∈ others, o.head? = some a) : 0 < commonAll p others := by
  cases p with
  | nil => cases hp
  | cons b p =>
    cases hp
    have : others.all (·.head? = some a) := by
      rw [List.all_eq_true]; intro o ho; simpa using h o ho
    simp [commonAll, this]

theorem rootPath_head (hs : ix.Sound) {s : Name} (h : s ∈ ix.order) :
    (ix.rootPath s).head? = some ix.root := by
  cases hp : ix.parent s with
  | none =>
    rcases (ix.hierarchy hs).parent_declared h with hr | ⟨p, hp', -⟩
    · rw [show s = ix.root from hr, rootPath_root hs]; rfl
    · rw [show (ix.hierarchy hs).parent s = none from hp] at hp'; cases hp'
  | some p =>
    have hpo : p ∈ ix.order := (Hierarchy.parent_declared_of (H := ix.hierarchy hs) h hp).1
    have hd : ix.depth s = ix.depth p + 1 := (ix.hierarchy hs).depth_parent h hp
    rw [rootPath_of_parent hs h hp, List.head?_append, rootPath_head hs hpo]
    rfl
termination_by ix.depth s

theorem common_append {l p q : List Name} {a b : Name} (h : a ≠ b) :
    common (l ++ a :: p) (l ++ b :: q) = l.length := by
  induction l with
  | nil => simp [common, h]
  | cons x l ih => simp [common, ih]

/-- States that part at `c` and `d` below one ancestor cross regions unless the slots agree. -/
theorem slot_eq_of_not_crosses {s t c d : Name} {l p q : List Name}
    (hs : ix.rootPath s = l ++ c :: p) (ht : ix.rootPath t = l ++ d :: q)
    (h : ix.crossesRegions s t = false) : ix.slot c = ix.slot d := by
  by_cases hcd : c = d
  · rw [hcd]
  · have hs' : (ix.path s).reverse = l ++ c :: p := hs
    have ht' : (ix.path t).reverse = l ++ d :: q := ht
    simp only [crossesRegions, hs', ht', common_append hcd] at h
    simpa using h

/--
**A row leaves and enters the same region.**

The state the row leaves (`topBelow`) and the first state of every entry path are children of
the domain's owner in the domain's region.
-/
theorem domain_spec (hs : ix.Sound) {source : Name} {targets : List Name}
    (hsrc : source ∈ ix.order) (htgt : ∀ t ∈ targets, t ∈ ix.order)
    (hcross : ∀ t ∈ targets, ix.crossesRegions source t = false) :
    (ix.hierarchy hs).Sub (ix.topBelow source (ix.domain source targets).1) source ∧
    ∀ t ∈ targets, ∃ u l, ix.entryPath (ix.domain source targets).1 t = u :: l ∧
      ix.Down u l t ∧ u ∈ ix.order ∧
      ix.parent u = ix.parent (ix.topBelow source (ix.domain source targets).1) ∧
      ix.slot u = ix.slot (ix.topBelow source (ix.domain source targets).1) := by
  obtain ⟨l, q, hq, hlen, hall⟩ :=
    commonAll_prefix (ix.rootPath source) (targets.map ix.rootPath)
  have hpos : 0 < l.length := by
    rw [hlen]
    refine commonAll_pos (rootPath_head hs hsrc) ?_
    intro o ho
    obtain ⟨t, ht, rfl⟩ := List.mem_map.mp ho
    exact rootPath_head hs (htgt t ht)
  obtain ⟨m, o, rfl⟩ : ∃ m o, l = m ++ [o] :=
    ⟨l.dropLast, l.getLast (List.ne_nil_of_length_pos hpos), (List.dropLast_append_getLast _).symm⟩
  -- the common prefix is the path of its last state `o`
  have pre : ∀ {t : Name} {r : List Name}, t ∈ ix.order → ix.rootPath t = m ++ [o] ++ r →
      (ix.hierarchy hs).Sub o t ∧ ix.rootPath o = m ++ [o] ∧ r = after (ix.rootPath t) o := by
    intro t r ht hr
    rw [List.append_assoc] at hr
    obtain ⟨h1, h2, h3⟩ := rootPath_prefix hs ht hr
    exact ⟨h1, h2.symm, h3⟩
  obtain ⟨hos, hro, hqa⟩ := pre hsrc hq
  have tops : ∀ t ∈ targets, (ix.hierarchy hs).Sub o t := by
    intro t ht
    obtain ⟨r, hr⟩ := hall _ (List.mem_map_of_mem ht)
    exact (pre (htgt t ht) hr).1
  have hlen' : commonAll (ix.rootPath source) (targets.map ix.rootPath) = m.length + 1 := by
    rw [← hlen]; simp
  have htop : (ix.rootPath source).getD (m.length + 1 - 1) source = o := by
    rw [hq]; simp
  have hdom : ix.domain source targets =
      if (ix.rootPath source :: targets.map ix.rootPath).any (·.length = m.length + 1)
      then (ix.parent o, ix.slot o)
      else (some o, ix.slot ((ix.rootPath source).getD (m.length + 1) source)) := by
    have hunfold : ix.domain source targets =
        let n := commonAll (ix.rootPath source) (targets.map ix.rootPath)
        let top := (ix.rootPath source).getD (n - 1) source
        if (ix.rootPath source :: targets.map ix.rootPath).any (·.length = n)
        then (ix.parent top, ix.slot top)
        else (some top, ix.slot ((ix.rootPath source).getD n source)) := rfl
    rw [hunfold, hlen']
    simp only [htop]
  rw [hdom]
  split
  · -- one endpoint contains the others: that state is left too
    have hhead : ix.topBelow source (ix.parent o) = o := by
      rw [topBelow, entryPath_parent hs hsrc hos]; rfl
    rw [hhead]
    refine ⟨hos, fun t ht => ⟨o, _, entryPath_parent hs (htgt t ht) (tops t ht), ?_, ?_, rfl, rfl⟩⟩
    · exact (after_rootPath hs (htgt t ht) (tops t ht)).2
    · exact (tops t ht).declared (htgt t ht)
  · next hany =>
    -- no endpoint contains the others: each path goes on below `o`
    have below : ∀ {t : Name}, t ∈ ix.order → (ix.hierarchy hs).Sub o t →
        (ix.rootPath t).length ≠ m.length + 1 → ∃ c r, after (ix.rootPath t) o = c :: r ∧
        ix.rootPath t = (m ++ [o]) ++ c :: r ∧ c ∈ ix.order ∧ ix.parent c = some o ∧
        ix.Down c r t := by
      intro t ht hot hne
      obtain ⟨hdec, hdown⟩ := after_rootPath hs ht hot
      rw [hro] at hdec
      cases ha : after (ix.rootPath t) o with
      | nil => rw [hdec, ha] at hne; simp at hne
      | cons c r =>
        rw [ha] at hdec hdown
        exact ⟨c, r, rfl, hdec, hdown.1, hdown.2.1, hdown.2.2⟩
    simp only [List.any_cons, List.any_map, Bool.or_eq_true, decide_eq_true_eq, List.any_eq_true,
      Function.comp, not_or, not_exists, not_and] at hany
    obtain ⟨c, r, ha, hdec, hco, hcp, hdown⟩ := below hsrc hos hany.1
    have hhead : ix.topBelow source (some o) = c := by
      rw [topBelow]; simp only [entryPath]
      change (after (ix.rootPath source) o).head?.getD source = c
      rw [ha]; rfl
    rw [hhead]
    refine ⟨?_, ?_⟩
    · rw [← mem_path hs hsrc, ← List.mem_reverse, ← rootPath, hdec]; simp
    · intro t ht
      obtain ⟨d, k, had, hdecd, hdo, hdp, hdownd⟩ := below (htgt t ht) (tops t ht) (hany.2 t ht)
      refine ⟨d, k, had, hdownd, hdo, by rw [hdp, hcp], ?_⟩
      exact (slot_eq_of_not_crosses hdec hdecd (hcross t ht)).symm

end Dsl41.StateMachine.Index
