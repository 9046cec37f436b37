import Dsl41.Infra.Dict
import Dsl41.StateMachine.Chains
import Dsl41.StateMachine.Completions

/-!
# The ancestry of an item

A chained item's ancestry is a link that extends its parent's, shared by all items of a microstep. The
executor keeps the links of the item in hand as a path, with the count of each step on it, and moves
both from one item to the next; it compares links by identity.

`align_links` is what moving comes to, `reach_count` what a count then reads, in every run.
-/

namespace Dsl41.StateMachine

open Infra

/-! ## Links -/

/-- `Ancestry`: a link and its address, which is what `is` compares. -/
inductive Ancestry (κ : Type)
  | root (address : Nat) (step : Link κ)
  | extend (address : Nat) (parent : Ancestry κ) (step : Link κ)

/-- `Sequence[Step]`: a tier's own tuple, empty for a root item, or a link. -/
inductive Steps (κ : Type)
  | tuple (steps : List (Link κ))
  | ancestry (link : Ancestry κ)

namespace Ancestry

variable {κ : Type}

def address : Ancestry κ → Nat
  | root address _ | extend address _ _ => address

/-- The last link: the microstep that chained the item. -/
def step : Ancestry κ → Link κ
  | root _ step | extend _ _ step => step

/-- The ancestry this one extends; none for a root's child. -/
def parent : Ancestry κ → Option (Ancestry κ)
  | root _ _ => none
  | extend _ parent _ => some parent

/-- `_depth`, which is `len`. -/
def depth : Ancestry κ → Nat
  | root _ _ => 1
  | extend _ parent _ => parent.depth + 1

/-- The steps, root first. -/
def steps : Ancestry κ → List (Link κ)
  | root _ step => [step]
  | extend _ parent step => parent.steps ++ [step]

/-- The link and those it extends, root first. -/
def links : Ancestry κ → List (Ancestry κ)
  | root address step => [root address step]
  | extend address parent step => parent.links ++ [extend address parent step]

/-- A new link, at the next address. -/
def make (made : List (Ancestry κ)) (parent : Option (Ancestry κ)) (step : Link κ) : Ancestry κ :=
  match parent with
  | none => root made.length step
  | some parent => extend made.length parent step

/-- The links of a tier's own tuple of steps, root first. -/
def makeLinks (made : List (Ancestry κ)) (link : Option (Ancestry κ)) :
    List (Link κ) → List (Ancestry κ) × Option (Ancestry κ)
  | [] => (made, link)
  | each :: rest => makeLinks (made ++ [make made link each]) (some (make made link each)) rest

/-- `__init__`: the links made so far, then with the new one, and the new one. -/
def init (made : List (Ancestry κ)) (parent : Steps κ) (step : Link κ) : List (Ancestry κ) × Ancestry κ :=
  let (made, parent) :=
    match parent with
    | .ancestry link => (made, some link)
    | .tuple steps => makeLinks made none steps
  (made ++ [make made parent step], make made parent step)

end Ancestry

/-- The steps of the sequence. -/
def Steps.steps {κ : Type} : Steps κ → List (Link κ)
  | tuple steps => steps
  | ancestry link => link.steps

/-! ## The path of the item in hand -/

/-- `_path` and `_on_path`: the links of the item in hand's ancestry, root first, and the count of each
step in it. -/
structure Path (κ : Type) where
  path : List (Ancestry κ) := []
  on_path : Dict (Link κ) Nat := ∅

namespace Path

variable {κ : Type} [DecidableEq κ]

/-- The path has the link where its depth says. -/
def has (path : List (Ancestry κ)) (link : Ancestry κ) : Bool :=
  path[link.depth - 1]?.any fun l => decide (l.address = link.address)

/-- The links from this one up that are not on the path, and how many of the path's are kept. -/
def missing (path : List (Ancestry κ)) : Ancestry κ → List (Ancestry κ) × Nat
  | .root address step =>
    if has path (.root address step) then ([], 1) else ([.root address step], 0)
  | .extend address parent step =>
    if has path (.extend address parent step) then ([], parent.depth + 1)
    else (.extend address parent step :: (missing path parent).1, (missing path parent).2)

/-- One link off the path; a step that is not counted raises. -/
def pop (p : Path κ) : Option (Path κ) :=
  match p.path.getLast? with
  | none => none
  | some link =>
    match p.on_path.get? link.step with
    | none => none
    | some 1 => some { path := p.path.dropLast, on_path := p.on_path.erase link.step }
    | some n => some { path := p.path.dropLast, on_path := p.on_path.set link.step (n - 1) }

/-- Links off the path, while it has more than are kept. -/
def popTo (keep : Nat) : Nat → Path κ → Option (Path κ)
  | 0, p => some p
  | n + 1, p => if keep < p.path.length then p.pop.bind (popTo keep n) else some p

def push (p : Path κ) (link : Ancestry κ) : Path κ where
  path := p.path ++ [link]
  on_path := p.on_path.set link.step ((p.on_path.get? link.step).getD 0 + 1)

/-- `_align`: the path becomes the item's ancestry. The links past the shared part go, its own come. -/
def align (p : Path κ) (ancestry : Steps κ) : Option (Path κ) :=
  let (missing, keep) :=
    match ancestry with
    | .tuple _ => ([], 0)
    | .ancestry link => missing p.path link
  (popTo keep p.path.length p).map fun p => missing.reverse.foldl push p

/-- `top is ancestry`, for the last link of the path or the empty tuple. -/
def isTop (p : Path κ) : Steps κ → Bool
  | .tuple steps => p.path.isEmpty && steps.isEmpty
  | .ancestry link => p.path.getLast?.any fun top => decide (top.address = link.address)

/-- `_count`: the step's links in the ancestry, read off the path for the item in hand's. -/
def count (p : Path κ) (ancestry : Steps κ) (step : Link κ) : Nat :=
  if p.isTop ancestry || (p.path.isEmpty && ancestry.steps.isEmpty) then (p.on_path.get? step).getD 0
  else ancestry.steps.count step

end Path

/-! ## The links made so far -/

section Made

variable {κ : Type} {made : List (Ancestry κ)} {a b l : Ancestry κ} {step : Link κ}

/-- Each link stands at its address, after the one it extends. -/
structure Made (made : List (Ancestry κ)) : Prop where
  address : ∀ (i : Nat) (a : Ancestry κ), made[i]? = some a → a.address = i
  closed : ∀ a ∈ made, ∀ p ∈ a.parent, p ∈ made

/-- A sequence a tier or an item holds: a link of it was made. -/
def Steps.Known (made : List (Ancestry κ)) : Steps κ → Prop
  | tuple _ => True
  | ancestry link => link ∈ made

theorem made_empty : Made ([] : List (Ancestry κ)) := ⟨nofun, nofun⟩

/-- Links of one address are one. -/
theorem Made.unique (h : Made made) (ha : a ∈ made) (hb : b ∈ made) (heq : a.address = b.address) : a = b := by
  obtain ⟨i, hi⟩ := List.mem_iff_getElem?.mp ha
  obtain ⟨j, hj⟩ := List.mem_iff_getElem?.mp hb
  have hij : i = j := by rw [← h.address i a hi, ← h.address j b hj, heq]
  rw [hij, hj] at hi
  exact (Option.some.inj hi).symm

theorem Made.make (h : Made made) {parent : Option (Ancestry κ)} (hparent : ∀ p ∈ parent, p ∈ made) (step : Link κ) :
    Made (made ++ [Ancestry.make made parent step]) where
  address i a ha := by
    rcases lt_or_ge i made.length with hi | hi
    · rw [List.getElem?_append_left hi] at ha
      exact h.address i a ha
    · rw [List.getElem?_append_right hi, List.getElem?_singleton] at ha
      split at ha
      · next hzero =>
        cases ha
        have hlen : made.length = i := by omega
        cases parent with
        | none => exact hlen
        | some p => exact hlen
      · cases ha
  closed a ha p hp := by
    rcases List.mem_append.mp ha with ha | ha
    · exact List.mem_append_left _ (h.closed a ha p hp)
    · rw [List.mem_singleton.mp ha] at hp
      cases parent with
      | none => cases hp
      | some q =>
        cases hp
        exact List.mem_append_left _ (hparent p rfl)

theorem steps_make {parent : Option (Ancestry κ)} :
    (Ancestry.make made parent step).steps = (parent.map Ancestry.steps).getD [] ++ [step] := by
  cases parent with
  | none => rfl
  | some p => rfl

theorem Made.makeLinks (h : Made made) (steps : List (Link κ)) (link : Option (Ancestry κ))
    (hlink : ∀ p ∈ link, p ∈ made) :
    Made (Ancestry.makeLinks made link steps).1 ∧ made ⊆ (Ancestry.makeLinks made link steps).1 ∧
      (∀ p ∈ (Ancestry.makeLinks made link steps).2, p ∈ (Ancestry.makeLinks made link steps).1) ∧
      ((Ancestry.makeLinks made link steps).2.map Ancestry.steps).getD [] =
        (link.map Ancestry.steps).getD [] ++ steps := by
  induction steps generalizing made link with
  | nil => exact ⟨h, List.Subset.refl _, hlink, (List.append_nil _).symm⟩
  | cons each rest ih =>
    obtain ⟨hmade, hsub, hmem, hsteps⟩ := ih (h.make hlink each) (some (Ancestry.make made link each)) fun p hp => by
        cases hp
        exact List.mem_append_right _ List.mem_cons_self
    refine ⟨hmade, List.Subset.trans (List.subset_append_left _ _) hsub, hmem, ?_⟩
    rw [Ancestry.makeLinks, hsteps, Option.map_some, Option.getD_some, steps_make, List.append_assoc]
    rfl

/-- A new ancestry is its parent's steps and one more. -/
theorem Made.init (h : Made made) {parent : Steps κ} (hparent : parent.Known made) (step : Link κ) :
    Made (Ancestry.init made parent step).1 ∧ made ⊆ (Ancestry.init made parent step).1 ∧
      (Ancestry.init made parent step).2 ∈ (Ancestry.init made parent step).1 ∧
      (Ancestry.init made parent step).2.steps = parent.steps ++ [step] := by
  cases parent with
  | ancestry link =>
    refine ⟨h.make (fun p hp => ?_) step, List.subset_append_left _ _, List.mem_append_right _ List.mem_cons_self, rfl⟩
    cases hp
    exact hparent
  | tuple steps =>
    obtain ⟨hmade, hsub, hmem, hsteps⟩ := h.makeLinks steps none nofun
    refine ⟨hmade.make hmem step, List.Subset.trans hsub (List.subset_append_left _ _), List.mem_append_right _ List.mem_cons_self, ?_⟩
    rw [Ancestry.init, steps_make, hsteps]
    rfl

theorem Steps.Known.mono {made' : List (Ancestry κ)} {ancestry : Steps κ} (h : ancestry.Known made)
    (hsub : made ⊆ made') : ancestry.Known made' := by
  cases ancestry with
  | tuple steps => trivial
  | ancestry link => exact hsub h

namespace Ancestry

theorem depth_pos (a : Ancestry κ) : 0 < a.depth := by
  cases a with
  | root address step => exact Nat.one_pos
  | extend address parent step => exact Nat.succ_pos _

@[simp] theorem length_links (a : Ancestry κ) : a.links.length = a.depth := by
  induction a with
  | root address step => rfl
  | extend address parent step ih => rw [links, List.length_append, ih, depth, List.length_singleton]

theorem getLast?_links (a : Ancestry κ) : a.links.getLast? = some a := by
  cases a with
  | root address step => rfl
  | extend address parent step => rw [links, List.getLast?_append, List.getLast?_singleton, Option.some_or]

theorem map_step_links (a : Ancestry κ) : a.links.map Ancestry.step = a.steps := by
  induction a with
  | root address step => rfl
  | extend address parent step ih => rw [links, List.map_append, ih, steps, List.map_singleton]; rfl

/-- Up to a link, the links are that link's own. -/
theorem take_links {i : Nat} (h : a.links[i]? = some l) : l.depth = i + 1 ∧ a.links.take (i + 1) = l.links := by
  induction a with
  | root address step =>
    rw [links, List.getElem?_singleton] at h
    split at h
    · next hzero =>
      cases h
      rw [hzero]
      exact ⟨rfl, rfl⟩
    · cases h
  | extend address parent step ih =>
    rw [links] at h ⊢
    rcases lt_or_ge i parent.links.length with hi | hi
    · rw [List.getElem?_append_left hi] at h
      obtain ⟨hdepth, htake⟩ := ih h
      exact ⟨hdepth, (List.take_append_of_le_length hi).trans htake⟩
    · rw [List.getElem?_append_right hi, List.getElem?_singleton] at h
      split at h
      · next hzero =>
        cases h
        have hi : i = parent.depth := by
          rw [length_links] at hzero hi
          omega
        refine ⟨by rw [depth, hi], List.take_of_length_le ?_⟩
        rw [List.length_append, length_links, List.length_singleton, hi]
      · cases h

end Ancestry

theorem Made.links (h : Made made) (ha : a ∈ made) : a.links ⊆ made := by
  induction a with
  | root address step => exact List.cons_subset.mpr ⟨ha, List.nil_subset _⟩
  | extend address parent step ih =>
    exact List.append_subset.mpr ⟨ih (h.closed _ ha parent rfl), List.cons_subset.mpr ⟨ha, List.nil_subset _⟩⟩

end Made

/-! ## Moving the path -/

section Path

variable {κ : Type} [DecidableEq κ] {made : List (Ancestry κ)} {a : Ancestry κ} {p p' : Path κ} {step : Link κ}
  {ancestry : Steps κ}

/-- The steps of the path are counted. -/
def Path.Counted (p : Path κ) : Prop :=
  ∀ step, p.on_path.get? step =
    if (p.path.map Ancestry.step).count step = 0 then none else some ((p.path.map Ancestry.step).count step)

/-- The links a sequence comes to on the path. -/
def Steps.links : Steps κ → List (Ancestry κ)
  | .tuple _ => []
  | .ancestry link => link.links

/-- The path is one branch of the links that were made, and its steps are counted. -/
structure Path.Sound (made : List (Ancestry κ)) (p : Path κ) : Prop where
  branch : p.path = [] ∨ ∃ top ∈ made, p.path = top.links
  counted : p.Counted

theorem Path.Counted.getD (h : p.Counted) : (p.on_path.get? step).getD 0 = (p.path.map Ancestry.step).count step := by
  rw [h step]
  split
  · next hzero => rw [hzero]; rfl
  · rfl

theorem sound_empty : Path.Sound made ({} : Path κ) := ⟨.inl rfl, fun _ => rfl⟩

theorem Path.Sound.mono {made' : List (Ancestry κ)} (h : p.Sound made) (hsub : made ⊆ made') : p.Sound made' where
  branch := h.branch.imp_right fun ⟨top, htop, hpath⟩ => ⟨top, hsub htop, hpath⟩
  counted := h.counted

omit [DecidableEq κ] in
/-- The walk up ends at the path's own part of the ancestry. -/
theorem Path.missing_links (hm : Made made) (hb : p.path = [] ∨ ∃ top ∈ made, p.path = top.links) (ha : a ∈ made) :
    (missing p.path a).2 ≤ p.path.length ∧
      p.path.take (missing p.path a).2 ++ (missing p.path a).1.reverse = a.links := by
  -- a link the path has is the path's own, and so are those above it
  have hown : ∀ link ∈ made, has p.path link = true →
      link.depth ≤ p.path.length ∧ p.path.take link.depth = link.links := by
    intro link hlink hhas
    unfold has at hhas
    obtain ⟨l, hl, haddress⟩ := (Option.any_eq_true _ _).mp hhas
    obtain ⟨top, htop, hpath⟩ := hb.resolve_left fun hnil => by
      rw [hnil] at hl
      cases hl
    have hmem : l ∈ made := hm.links htop (hpath ▸ List.mem_of_getElem? hl)
    have heq : l = link := hm.unique hmem hlink (of_decide_eq_true haddress)
    subst heq
    rw [hpath] at hl ⊢
    obtain ⟨hdepth, htake⟩ := Ancestry.take_links hl
    have hlt := (List.getElem?_eq_some_iff.mp hl).1
    rw [← hdepth] at htake
    exact ⟨by omega, htake⟩
  induction a with
  | root address step =>
    rw [missing]
    split
    · next hhas =>
      obtain ⟨hle, htake⟩ := hown _ ha hhas
      exact ⟨hle, (List.append_nil _).trans htake⟩
    · exact ⟨Nat.zero_le _, rfl⟩
  | extend address parent step ih =>
    rw [missing]
    split
    · next hhas =>
      obtain ⟨hle, htake⟩ := hown _ ha hhas
      exact ⟨hle, (List.append_nil _).trans htake⟩
    · obtain ⟨hle, hlinks⟩ := ih (hm.closed _ ha parent rfl)
      refine ⟨hle, ?_⟩
      rw [List.reverse_cons, ← List.append_assoc, hlinks]
      rfl

theorem Path.Counted.pop {init : List (Ancestry κ)} (h : p.Counted) (hpath : p.path = init ++ [a]) :
    ∃ p', p.pop = some p' ∧ p'.path = init ∧ p'.Counted := by
  have hlast : p.path.getLast? = some a := by rw [hpath, List.getLast?_append, List.getLast?_singleton, Option.some_or]
  have hinit : p.path.dropLast = init := by rw [hpath, List.dropLast_concat]
  have hcount : ∀ step, (p.path.map Ancestry.step).count step =
      (init.map Ancestry.step).count step + if a.step = step then 1 else 0 := by
    intro step
    rw [hpath, List.map_append, List.count_append, List.map_singleton, List.count_singleton]
    simp only [beq_iff_eq]
  have hget : p.on_path.get? a.step = some ((init.map Ancestry.step).count a.step + 1) := by
    rw [h a.step, hcount, if_pos rfl, if_neg (Nat.succ_ne_zero _)]
  rw [Path.pop, hlast]
  dsimp only
  rw [hget]
  cases hzero : (init.map Ancestry.step).count a.step with
  | zero =>
    refine ⟨_, rfl, hinit, fun step => ?_⟩
    dsimp only
    rw [hinit, Dict.get?_erase]
    split
    · next heq => rw [heq, hzero, if_pos rfl]
    · next hne => rw [h step, hcount, if_neg (Ne.symm hne), Nat.add_zero]
  | succ n =>
    refine ⟨_, rfl, hinit, fun step => ?_⟩
    dsimp only
    rw [hinit, Dict.get?_set]
    split
    · next heq => rw [heq, hzero, if_neg (Nat.succ_ne_zero _)]; rfl
    · next hne => rw [h step, hcount, if_neg (Ne.symm hne), Nat.add_zero]

theorem Path.Counted.popTo (keep : Nat) {n : Nat} (h : p.Counted) (hn : p.path.length ≤ keep + n) :
    ∃ p', Path.popTo keep n p = some p' ∧ p'.path = p.path.take keep ∧ p'.Counted := by
  induction n generalizing p with
  | zero => exact ⟨p, rfl, (List.take_of_length_le hn).symm, h⟩
  | succ n ih =>
    rw [Path.popTo]
    split
    · next hlt =>
      rcases List.eq_nil_or_concat p.path with hnil | ⟨init, a, hconcat⟩
      · rw [hnil] at hlt
        cases hlt
      · rw [List.concat_eq_append] at hconcat
        obtain ⟨p', hpop, hpath, hcounted⟩ := h.pop hconcat
        rw [hconcat, List.length_append, List.length_singleton] at hn hlt
        obtain ⟨p'', hpops, htake, hcounted'⟩ := ih hcounted (by rw [hpath]; omega)
        refine ⟨p'', by rw [hpop, Option.bind_some, hpops], ?_, hcounted'⟩
        rw [htake, hpath, hconcat, List.take_append_of_le_length (by omega)]
    · next hle => exact ⟨p, rfl, (List.take_of_length_le (not_lt.mp hle)).symm, h⟩

theorem Path.Counted.push (h : p.Counted) : (p.push a).Counted := by
  intro step
  have hcount : ((p.path ++ [a]).map Ancestry.step).count step =
      (p.path.map Ancestry.step).count step + if a.step = step then 1 else 0 := by
    rw [List.map_append, List.count_append, List.map_singleton, List.count_singleton]
    simp only [beq_iff_eq]
  rw [Path.push, Dict.get?_set, hcount]
  split
  · next heq => rw [heq, if_pos rfl, if_neg (Nat.succ_ne_zero _), ← h.getD]
  · next hne => rw [if_neg (Ne.symm hne), Nat.add_zero, h step]

theorem Path.Counted.foldl_push (links : List (Ancestry κ)) (h : p.Counted) :
    (links.foldl Path.push p).Counted ∧ (links.foldl Path.push p).path = p.path ++ links := by
  induction links generalizing p with
  | nil => exact ⟨h, (List.append_nil _).symm⟩
  | cons a links ih =>
    obtain ⟨hcounted, hpath⟩ := ih (h.push (a := a))
    exact ⟨hcounted, by rw [List.foldl_cons, hpath, Path.push, List.append_assoc]; rfl⟩

/-- The path moves to any item's ancestry, wherever it was. -/
theorem Path.Sound.align (hm : Made made) (h : p.Sound made) (hknown : ancestry.Known made) :
    ∃ p', p.align ancestry = some p' ∧ p'.path = ancestry.links ∧ p'.Sound made := by
  cases ancestry with
  | tuple steps =>
    obtain ⟨p', hpops, hpath, hcounted⟩ := h.counted.popTo 0 (n := p.path.length) (by omega)
    refine ⟨p', ?_, hpath, .inl hpath, hcounted⟩
    show (Path.popTo 0 p.path.length p).map _ = _
    rw [hpops]
    rfl
  | ancestry link =>
    obtain ⟨hle, hlinks⟩ := Path.missing_links hm h.branch hknown
    obtain ⟨p₁, hpops, hpath, hcounted⟩ := h.counted.popTo (Path.missing p.path link).2
      (n := p.path.length) (by omega)
    obtain ⟨hcounted', hpath'⟩ := hcounted.foldl_push (Path.missing p.path link).1.reverse
    have hall : ((Path.missing p.path link).1.reverse.foldl Path.push p₁).path = link.links := by
      rw [hpath', hpath, hlinks]
    refine ⟨_, ?_, hall, .inr ⟨link, hknown, hall⟩, hcounted'⟩
    show (Path.popTo (Path.missing p.path link).2 p.path.length p).map _ = _
    rw [hpops]
    rfl

/-- A count reads the links of any ancestry, whatever path is in place. -/
theorem Path.Sound.count (hm : Made made) (h : p.Sound made) (hknown : ancestry.Known made) (step : Link κ) :
    p.count ancestry step = ancestry.steps.count step := by
  unfold Path.count
  split
  · next htop =>
    rw [h.counted.getD]
    congr 1
    rcases Bool.or_eq_true_iff.mp htop with htop | hempty
    · cases ancestry with
      | tuple steps =>
        obtain ⟨hpath, hsteps⟩ := Bool.and_eq_true_iff.mp htop
        rw [List.isEmpty_iff.mp hpath, Steps.steps, List.isEmpty_iff.mp hsteps]
        rfl
      | ancestry link =>
        obtain ⟨last, hlast, haddress⟩ := (Option.any_eq_true _ _).mp htop
        obtain ⟨top, hmem, hpath⟩ := h.branch.resolve_left fun hnil => by
          rw [hnil] at hlast
          cases hlast
        rw [hpath, Ancestry.getLast?_links] at hlast
        cases hlast
        rw [hpath, Ancestry.map_step_links, hm.unique hmem hknown (of_decide_eq_true haddress)]
        rfl
    · obtain ⟨hpath, hsteps⟩ := Bool.and_eq_true_iff.mp hempty
      rw [List.isEmpty_iff.mp hpath, List.isEmpty_iff.mp hsteps]
      rfl
  · rfl

end Path

/-! ## The executor and its path -/

/-- The executor with the ancestries its worklist's items hold, the links made so far and the path of the
item in hand. -/
structure Aligned (κ υ ω : Type) where
  records : Records κ υ ω
  pool : List (Item κ υ) := []
  worklist : List (Item κ υ × Steps κ) := []
  made : List (Ancestry κ) := []
  path : Path κ := {}

namespace Aligned

variable {κ υ ω : Type}

def exec (a : Aligned κ υ ω) : Executor κ υ ω where
  records := a.records
  pool := a.pool
  worklist := a.worklist.map Prod.fst

/-- The tier's calls touch neither worklist nor path. -/
def set (a : Aligned κ υ ω) (e : Executor κ υ ω) : Aligned κ υ ω :=
  { a with records := e.records, pool := e.pool }

/-- What a run does in the end, also where it raises. -/
def finish (a : Aligned κ υ ω) : Aligned κ υ ω := { a with worklist := [], path := {} }

/-- What a microstep queues; its items share one new ancestry. -/
def queue (a : Aligned κ υ ω) (item : Item κ υ) (ancestry : Steps κ) (queued : List (Item κ υ)) : Aligned κ υ ω :=
  if queued = [] then a
  else
    let (made, chained) := Ancestry.init a.made ancestry (item.key, item.event.name)
    { a with made, worklist := extendLeft a.worklist (queued.map fun item => (item, .ancestry chained)).reverse }

/-- Why a round raises. -/
inductive Error
  | statechart (e : StatechartError)
  | keyError

variable [DecidableEq κ]

/-- One round of the loop of `run`. -/
def turn (after : Hook κ υ ω) (a : Aligned κ υ ω) :
    Except Error (Option (Aligned κ υ ω × Option (Outcome κ υ))) :=
  match a.worklist with
  | (item, ancestry) :: rest =>
    match a.path.align ancestry with
    | none => .error .keyError
    | some path => do
      let (r, out, queued) ← (microstep a.records item).mapError .statechart
      let a := { a with records := { r with world := after out r }, worklist := rest, path }
      return some (a.queue item ancestry queued.order, some out)
  | [] => do
    match ← (release a.records).mapError .statechart with
    | some (item, r) => return some ({ a with records := r, worklist := [(item, .tuple [])] }, none)
    | none =>
      match a.pool with
      | item :: pool => return some ({ a with pool, worklist := [(item, .tuple [])] }, none)
      | [] => return none

/-- The executors a tier reaches, each with its path: from any records, as a new executor or a fork has
them, by the tier's calls and by rounds of `run`, up to its end or to one that raises. -/
inductive Reach [Inhabited υ] (after : Hook κ υ ω) : Aligned κ υ ω → Prop
  | new (records : Records κ υ ω) : Reach after { records }
  | outside {a : Aligned κ υ ω} (h : Reach after a) (world : ω) :
      Reach after { a with records := { a.records with world } }
  | start {a : Aligned κ υ ω} {e : Executor κ υ ω} {key : κ} {chart : Statechart κ υ ω} {data : υ}
      (h : Reach after a) (hi : a.worklist = []) (hs : a.exec.start key chart data = .ok e) : Reach after (a.set e)
  | restore {a : Aligned κ υ ω} {e : Executor κ υ ω} {key : κ} {chart : Statechart κ υ ω} {active : Finset Name}
      {data : υ} {generations : Name → Int} (h : Reach after a) (hi : a.worklist = [])
      (hs : a.exec.restore key chart active data generations = .ok e) : Reach after (a.set e)
  | post {a : Aligned κ υ ω} {e : Executor κ υ ω} {key : κ} {event : Event υ} (h : Reach after a)
      (hi : a.worklist = []) (hs : a.exec.post key event = .ok e) : Reach after (a.set e)
  | forget {a : Aligned κ υ ω} {e : Executor κ υ ω} {key : κ} (h : Reach after a) (hi : a.worklist = [])
      (hs : a.exec.forget key = .ok e) : Reach after (a.set e)
  | turn {a a' : Aligned κ υ ω} {out : Option (Outcome κ υ)} (h : Reach after a)
      (hs : a.turn after = .ok (some (a', out))) : Reach after a'
  | returned {a : Aligned κ υ ω} (h : Reach after a) (hs : a.turn after = .ok none) : Reach after a.finish
  | raised {a : Aligned κ υ ω} {error : Error} (h : Reach after a) (hs : a.turn after = .error error)
      (records : Records κ υ ω) : Reach after { a.finish with records }

/-! ## Every run -/

variable {after : Hook κ υ ω} {a a' : Aligned κ υ ω} {out : Option (Outcome κ υ)}

/-- Each item of the worklist holds its own ancestry, which was made; the pool has root items. -/
structure Sound (a : Aligned κ υ ω) : Prop where
  made : Made a.made
  path : a.path.Sound a.made
  known : ∀ i ∈ a.worklist, i.2.Known a.made
  steps : ∀ i ∈ a.worklist, i.2.steps = i.1.ancestry
  pool : ∀ item ∈ a.pool, item.ancestry = []

omit [DecidableEq κ] in
theorem queue_eq {item : Item κ υ} {ancestry : Steps κ} {queued : List (Item κ υ)} (hq : queued ≠ []) :
    a.queue item ancestry queued =
      { a with
        made := (Ancestry.init a.made ancestry (item.key, item.event.name)).1
        worklist := queued.map (fun i => (i, .ancestry (Ancestry.init a.made ancestry (item.key, item.event.name)).2)) ++
          a.worklist } := by
  rw [queue, if_neg hq, ← extendLeft_reverse]

theorem Sound.finish (h : a.Sound) : a.finish.Sound where
  made := h.made
  path := sound_empty
  known := nofun
  steps := nofun
  pool := h.pool

theorem Sound.queue (h : a.Sound) {item : Item κ υ} {ancestry : Steps κ} {queued : List (Item κ υ)}
    (hknown : ancestry.Known a.made) (hsteps : ancestry.steps = item.ancestry)
    (hqueued : ∀ i ∈ queued, i.ancestry = item.ancestry ++ [(item.key, item.event.name)]) :
    (a.queue item ancestry queued).Sound := by
  by_cases hq : queued = []
  · rw [Aligned.queue, if_pos hq]
    exact h
  · obtain ⟨hmade, hsub, hmem, hnew⟩ := h.made.init hknown (item.key, item.event.name)
    rw [queue_eq hq]
    refine ⟨hmade, h.path.mono hsub, fun i hi => ?_, fun i hi => ?_, h.pool⟩
    · rcases List.mem_append.mp hi with hi | hi
      · obtain ⟨_, -, rfl⟩ := List.mem_map.mp hi
        exact hmem
      · exact (h.known i hi).mono hsub
    · rcases List.mem_append.mp hi with hi | hi
      · obtain ⟨next, hnext, rfl⟩ := List.mem_map.mp hi
        rw [hqueued next hnext, ← hsteps]
        exact hnew
      · exact h.steps i hi

/-- The path moves to the item in hand. -/
theorem Sound.align (h : a.Sound) {item : Item κ υ} {ancestry : Steps κ} {rest : List (Item κ υ × Steps κ)}
    (hw : a.worklist = (item, ancestry) :: rest) :
    ∃ path, a.path.align ancestry = some path ∧ path.path = ancestry.links ∧ path.Sound a.made :=
  h.path.align h.made (h.known _ (hw ▸ List.mem_cons_self))

theorem Sound.turn (h : a.Sound) (hs : a.turn after = .ok (some (a', out))) : a'.Sound := by
  unfold Aligned.turn at hs
  split at hs
  next item ancestry rest hw =>
    obtain ⟨path, halign, -, hpath⟩ := h.align hw
    rw [halign] at hs
    obtain ⟨⟨r, out', queued⟩, hm, hs⟩ := bind_eq_ok.mp hs
    cases hs
    have hmem : (item, ancestry) ∈ a.worklist := hw ▸ List.mem_cons_self
    have hrest : ∀ i ∈ rest, i ∈ a.worklist := fun i hi => hw ▸ List.mem_cons_of_mem _ hi
    refine Sound.queue (a := { a with records := { r with world := after out' r }, worklist := rest, path })
      ⟨h.made, hpath, fun i hi => h.known i (hrest i hi), fun i hi => h.steps i (hrest i hi), h.pool⟩
      (h.known _ hmem) (h.steps _ hmem) ?_
    cases hstep : microstep a.records item with
    | error e =>
      rw [hstep] at hm
      cases hm
    | ok ran =>
      rw [hstep] at hm
      cases hm
      exact fun i hi => (microstep_chains hstep i hi).1
  next hw =>
    obtain ⟨found, hr, hs⟩ := bind_eq_ok.mp hs
    cases found with
    | some p =>
      obtain ⟨item, r⟩ := p
      cases hs
      refine ⟨h.made, h.path, fun i hi => ?_, fun i hi => ?_, h.pool⟩
      · rw [List.mem_singleton.mp hi]
        trivial
      · rw [List.mem_singleton.mp hi]
        cases hrelease : release a.records with
        | error e =>
          rw [hrelease] at hr
          cases hr
        | ok found =>
          rw [hrelease] at hr
          cases hr
          obtain ⟨inst, head, tail, -, -, hitem, -, -⟩ := releaseFrom_head hrelease
          rw [hitem]
          rfl
    | none =>
      cases hp : a.pool with
      | nil =>
        rw [hp] at hs
        cases hs
      | cons item pool =>
        rw [hp] at hs
        cases hs
        refine ⟨h.made, h.path, fun i hi => ?_, fun i hi => ?_, fun i hi => h.pool i (hp ▸ List.mem_cons_of_mem _ hi)⟩
        · rw [List.mem_singleton.mp hi]
          trivial
        · rw [List.mem_singleton.mp hi]
          exact (h.pool item (hp ▸ List.mem_cons_self)).symm

theorem Sound.set {e : Executor κ υ ω} (h : a.Sound) (hpool : ∀ item ∈ e.pool, item.ancestry = []) :
    (a.set e).Sound :=
  ⟨h.made, h.path, h.known, h.steps, hpool⟩

/-- The calls that add an instance leave the pool as it is. -/
theorem add_pool {e e' : Executor κ υ ω} {key : κ} {inst : Instance κ υ ω} (h : e.add key inst = .ok e') :
    e'.pool = e.pool := by
  unfold Executor.add at h
  split at h
  · cases h
  · cases h
    rfl

theorem reach_sound [Inhabited υ] (h : Reach after a) : a.Sound := by
  induction h with
  | new records => exact ⟨made_empty, sound_empty, nofun, nofun, nofun⟩
  | outside _ _ ih => exact ⟨ih.made, ih.path, ih.known, ih.steps, ih.pool⟩
  | start _ _ hs ih =>
    refine ih.set fun item hitem => ?_
    obtain ⟨e, hadd, hs⟩ := bind_eq_ok.mp hs
    cases hs
    rcases List.mem_append.mp hitem with hitem | hitem
    · rw [add_pool hadd] at hitem
      exact ih.pool item hitem
    · rw [List.mem_singleton.mp hitem]
  | restore _ _ hs ih =>
    refine ih.set fun item hitem => ?_
    unfold Executor.restore at hs
    split at hs
    · cases hs
    · rw [add_pool hs] at hitem
      exact ih.pool item hitem
  | post _ _ hs ih =>
    refine ih.set fun item hitem => ?_
    obtain ⟨inst, -, hs⟩ := bind_eq_ok.mp hs
    obtain ⟨_, -, hs⟩ := bind_eq_ok.mp hs
    cases hs
    rcases List.mem_append.mp hitem with hitem | hitem
    · exact ih.pool item hitem
    · rw [List.mem_singleton.mp hitem]
  | forget _ _ hs ih =>
    refine ih.set fun item hitem => ?_
    obtain ⟨inst, -, hs⟩ := bind_eq_ok.mp hs
    dsimp only at hs
    split at hs
    · cases hs
    · split at hs
      · cases hs
      · cases hs
        exact ih.pool item hitem
  | turn _ hs ih => exact ih.turn hs
  | returned _ _ ih => exact ih.finish
  | raised _ _ _ ih => exact ⟨ih.made, sound_empty, nofun, nofun, ih.pool⟩

omit [DecidableEq κ] in
theorem queue_exec {item : Item κ υ} {ancestry : Steps κ} {queued : List (Item κ υ)} :
    (a.queue item ancestry queued).exec =
      { a.exec with worklist := extendLeft a.exec.worklist queued.reverse } := by
  rw [extendLeft_reverse]
  by_cases hq : queued = []
  · rw [Aligned.queue, if_pos hq, hq]
    rfl
  · rw [queue_eq hq, exec, exec]
    simp only [List.map_append, List.map_map, Function.comp_def, List.map_id']

/-- A round is the executor's own: the path decides nothing in it and never stops it. -/
theorem Sound.turn_exec (h : a.Sound) :
    (a.turn after).map (Option.map fun p => (p.1.exec, p.2)) = (a.exec.turn after).mapError .statechart := by
  unfold Aligned.turn Executor.turn
  cases hw : a.worklist with
  | cons i rest =>
    obtain ⟨item, ancestry⟩ := i
    obtain ⟨path, halign, -, -⟩ := h.align hw
    have hexec : a.exec.worklist = item :: rest.map Prod.fst := by rw [exec, hw]; rfl
    rw [hexec]
    dsimp only
    rw [halign]
    dsimp only
    unfold Executor.step
    show _ = Except.mapError _ ((microstep a.records item >>= _) >>= _)
    cases microstep a.records item with
    | error e => rfl
    | ok ran =>
      obtain ⟨r, out, queued⟩ := ran
      show Except.ok (some (exec (Aligned.queue _ item ancestry queued.order), some out)) = _
      rw [queue_exec]
      rfl
  | nil =>
    have hexec : a.exec.worklist = [] := by rw [exec, hw]; rfl
    rw [hexec]
    dsimp only
    show _ = Except.mapError _ (release a.records >>= _)
    cases release a.records with
    | error e => rfl
    | ok found =>
      cases found with
      | some p => rfl
      | none =>
        cases hp : a.pool with
        | nil =>
          have hpool : a.exec.pool = [] := hp
          rw [hpool]
          rfl
        | cons item pool =>
          have hpool : a.exec.pool = item :: pool := hp
          rw [hpool]
          show Except.ok (some (exec { a with pool, worklist := [(item, .tuple [])] }, none)) = _
          rfl

end Aligned

/-- In every run of an executor, whatever the order of its items, a count reads the links of the ancestry it
is asked for: of the item in hand once the path has moved to it, of a released head while the path of an
earlier item is in place, and of any link that was ever made. The path decides nothing else. -/
theorem reach_count {κ υ ω : Type} [DecidableEq κ] [Inhabited υ] {after : Hook κ υ ω} {a : Aligned κ υ ω}
    (h : a.Reach after) :
    (∀ item ancestry rest, a.worklist = (item, ancestry) :: rest → ∃ path, a.path.align ancestry = some path ∧
      ∀ (inst : Instance κ υ ω) step, path.count ancestry step = (context inst item).count step) ∧
    (∀ (inst : Instance κ υ ω) (key : κ) (event : Event υ) (step : Link κ), a.path.count (.tuple []) step =
      (context inst { key, kind := .event, event, released := true }).count step) ∧
    (∀ ancestry, ancestry.Known a.made → ∀ step, a.path.count ancestry step = ancestry.steps.count step) ∧
    (a.turn after).map (Option.map fun p => (p.1.exec, p.2)) = (a.exec.turn after).mapError .statechart := by
  have hsound := Aligned.reach_sound h
  have hroot : (Steps.tuple [] : Steps κ).Known a.made := trivial
  refine ⟨fun item ancestry rest hw => ?_, fun inst key event step => ?_, fun ancestry hknown step => ?_, hsound.turn_exec⟩
  · obtain ⟨path, halign, -, hpath⟩ := hsound.align hw
    have hmem : (item, ancestry) ∈ a.worklist := hw ▸ List.mem_cons_self
    refine ⟨path, halign, fun inst step => ?_⟩
    rw [hpath.count hsound.made (hsound.known _ hmem), hsound.steps _ hmem]
    rfl
  · exact hsound.path.count hsound.made hroot step
  · exact hsound.path.count hsound.made hknown step

/-- The event that entering `first` reports has the initial entry for its ancestry. -/
theorem reach_count_restless : ∃ (a : Aligned Nat Unit Unit) (item : Item Nat Unit) (ancestry : Steps Nat)
    (path : Path Nat), a.worklist.head? = some (item, ancestry) ∧ item.ancestry = [(0, INITIAL)] ∧
      a.path.align ancestry = some path ∧
      ∀ (inst : Instance Nat Unit Unit) step, path.count ancestry step = (context inst item).count step := by
  have h₀ : Aligned.Reach (fun _ r => r.world) ({ records := (Executor.idle ()).records } : Aligned Nat Unit Unit) :=
    .new _
  have h₁ := h₀.start rfl (rfl : Executor.start _ 0 restless () = .ok _)
  have h₂ := h₁.turn rfl
  have h₃ := h₂.turn rfl
  obtain ⟨path, halign, hcount⟩ := (reach_count h₃).1 _ _ _ rfl
  exact ⟨_, _, _, path, rfl, rfl, halign, hcount⟩

end Dsl41.StateMachine
