import Mathlib.Data.Finset.Union
import Dsl41.Reload.Diff

/-!
# Restarted boxes

An update restarts the outermost of the running boxes that it edits: `restartBoxes` finds them in the
live box tree. The theorem says when these are the outermost ones of the tree that they will run in.
-/

namespace Dsl41.Reload

open Infra

section Model

variable {V H : Type}

/-- What the engine supplies. -/
structure Live (V : Type) where
  catalog : CatalogIR V
  status : Dict String String

/-- The statuses of a job with a process to stop. -/
def STOPPABLE : List String := ["RUNNING", "STARTING"]

/-- The job is in the box, through others or directly. -/
abbrev Inside (catalog : CatalogIR V) (name box : String) : Prop := Relation.TransGen (MemberOf catalog.jobs) name box

/-- The jobs with a box among the names. -/
def memberNames (catalog : CatalogIR V) (members : Finset String) : Finset String :=
  ((catalog.jobs.entries.filter fun e => e.2.dump.box_name.any fun box => decide (box ∈ members)).map Prod.fst).toFinset

/-- The loop of `box_members`; none when the turns run out. -/
def grow (catalog : CatalogIR V) : Nat → Finset String → Option (Finset String)
  | 0, _ => none
  | n + 1, members =>
    let more := memberNames catalog members
    if more ⊆ members then some members else grow catalog n (members ∪ more)

theorem mem_memberNames {catalog : CatalogIR V} {members : Finset String} {name : String} :
    name ∈ memberNames catalog members ↔ ∃ box ∈ members, MemberOf catalog.jobs name box := by
  simp only [memberNames, List.mem_toFinset, List.mem_map, List.mem_filter, Option.any_eq_true, decide_eq_true_eq]
  constructor
  · rintro ⟨⟨_, job⟩, ⟨hmem, box, hbox, hin⟩, rfl⟩
    exact ⟨box, hin, job, Dict.get?_eq_some.mpr hmem, hbox⟩
  · rintro ⟨box, hin, job, hjob, hbox⟩
    exact ⟨(name, job), ⟨Dict.get?_eq_some.mp hjob, box, hbox, hin⟩, rfl⟩

/-- Every turn but the last finds a job that no turn before found. -/
theorem grow_isSome {catalog : CatalogIR V} : ∀ (n : Nat) {members : Finset String},
    (catalog.jobs.keys.toFinset \ members).card < n → (grow catalog n members).isSome
  | n + 1, members, hn => by
    rw [grow]
    split
    · rfl
    · next hmore =>
      refine grow_isSome n (lt_of_lt_of_le (Finset.card_lt_card ?_) (Nat.lt_succ_iff.mp hn))
      obtain ⟨name, hname, hnew⟩ := Finset.not_subset.mp hmore
      obtain ⟨box, -, job, hjob, -⟩ := mem_memberNames.mp hname
      refine Finset.ssubset_iff_subset_ne.mpr ⟨Finset.sdiff_subset_sdiff subset_rfl Finset.subset_union_left, fun heq => ?_⟩
      have hmem : name ∈ catalog.jobs.keys.toFinset \ members :=
        Finset.mem_sdiff.mpr ⟨List.mem_toFinset.mpr (Dict.mem_keys.mpr ⟨job, hjob⟩), hnew⟩
      rw [← heq, Finset.mem_sdiff] at hmem
      exact hmem.2 (Finset.mem_union_right _ hname)

/-- `box_members`: all descendants of the named boxes. -/
def boxMembers (catalog : CatalogIR V) (boxes : Finset String) : Finset String :=
  (grow catalog (catalog.jobs.keys.toFinset.card + 1) boxes).get
    (grow_isSome _ (Nat.lt_succ_of_le (Finset.card_le_card Finset.sdiff_subset))) \ boxes

variable [DecidableEq V] [DecidableEq H] (plan : Plan H) (live : Live V) (candidate : CatalogIR V)

/-- `restart_boxes`. -/
def restartBoxes : List String :=
  let boxes := (runningBoxes plan candidate live.status).toFinset
  let nested := boxes.biUnion fun box => boxMembers live.catalog {box}
  sorted (boxes \ nested)

/-- `stop_set`, with a candidate. -/
def stopSet : List String :=
  let roots := (restartBoxes plan live candidate).toFinset
  let names := (plan.changed.map Change.name ++ plan.removed).toFinset ∪ boxMembers live.catalog roots ∪
    boxMembers candidate roots
  sorted (names.filter fun name =>
    name ∈ live.catalog.jobs.keys ∧ (live.status.get? name).any (fun status => decide (status ∈ STOPPABLE)) = true ∧
      jobType live.catalog name ≠ some "BOX")

end Model

/-! ## Descendants -/

variable {V H : Type} {catalog : CatalogIR V} {name : String} {boxes members result : Finset String}

theorem grow_spec : ∀ {n : Nat} {members : Finset String}, grow catalog n members = some result →
    members ⊆ result ∧ (∀ box ∈ result, ∀ name, MemberOf catalog.jobs name box → name ∈ result) ∧
      ∀ name ∈ result, ∃ box ∈ members, Reaches (MemberOf catalog.jobs) name box
  | n + 1, members, h => by
    rw [grow] at h
    split at h
    · next hmore =>
      obtain rfl := Option.some.inj h
      exact ⟨subset_rfl, fun box hbox name hname => hmore (mem_memberNames.mpr ⟨box, hbox, hname⟩),
        fun name hname => ⟨name, hname, .refl⟩⟩
    · obtain ⟨hsub, hclosed, hreach⟩ := grow_spec h
      refine ⟨subset_trans Finset.subset_union_left hsub, hclosed, fun name hname => ?_⟩
      obtain ⟨box, hbox, hpath⟩ := hreach name hname
      rcases Finset.mem_union.mp hbox with hbox | hbox
      · exact ⟨box, hbox, hpath⟩
      · obtain ⟨outer, houter, hmember⟩ := mem_memberNames.mp hbox
        exact ⟨outer, houter, hpath.tail hmember⟩

theorem Inside.mem_closed {S : Finset String} (hclosed : ∀ box ∈ S, ∀ name, MemberOf catalog.jobs name box → name ∈ S)
    {box : String} (h : Inside catalog name box) (hbox : box ∈ S) : name ∈ S := by
  induction h with
  | single hmember => exact hclosed _ hbox _ hmember
  | tail _ hmember ih => exact ih (hclosed _ hbox _ hmember)

/-- The descendants are the jobs inside one of the boxes, the boxes themselves left out. -/
theorem mem_boxMembers : name ∈ boxMembers catalog boxes ↔ name ∉ boxes ∧ ∃ box ∈ boxes, Inside catalog name box := by
  rw [boxMembers, Finset.mem_sdiff, and_comm]
  generalize hgrow : Option.get _ _ = grown
  obtain ⟨hsub, hclosed, hreach⟩ := grow_spec ((Option.some_get _).symm.trans (congrArg some hgrow))
  refine and_congr_right fun hout => ⟨fun hname => ?_, fun ⟨box, hbox, hinside⟩ => hinside.mem_closed hclosed (hsub hbox)⟩
  obtain ⟨box, hbox, hpath⟩ := hreach name hname
  rcases Relation.reflTransGen_iff_eq_or_transGen.mp hpath with rfl | hinside
  · exact absurd hbox hout
  · exact ⟨box, hbox, hinside⟩

theorem Inside.mem_keys {catalog : CatalogIR V} {box : String} (h : Inside catalog name box) : name ∈ catalog.jobs.keys := by
  have hmember : ∀ {a b}, MemberOf catalog.jobs a b → a ∈ catalog.jobs.keys := fun ⟨job, hjob, _⟩ =>
    Dict.mem_keys.mpr ⟨job, hjob⟩
  induction h with
  | single h => exact hmember h
  | tail _ _ ih => exact ih

theorem IsBox.jobType {catalog : CatalogIR V} (h : IsBox catalog.jobs name) : jobType catalog name = some "BOX" := by
  obtain ⟨job, hjob, htype⟩ := h
  rw [Reload.jobType, hjob]
  exact congrArg some htype

/-- An edited name that is no box in the live catalog is a job that becomes one. -/
theorem Edited.lost {live candidate : CatalogIR V} (h : Edited live candidate name) (hlive : name ∈ live.jobs.keys)
    (hbox : jobType live name ≠ some "BOX") : Lost live candidate name := by
  rcases h with ⟨hlivebox, -⟩ | hmembers
  · exact absurd hlivebox hbox
  · obtain ⟨m, hm⟩ : ∃ m, ¬(m ∈ directMembers live name ↔ m ∈ directMembers candidate name) := by
      by_contra hall
      exact hmembers (Set.ext fun m => not_not.mp fun h => hall ⟨m, h⟩)
    have hisbox : ∀ {catalog : CatalogIR V}, m ∈ directMembers catalog name → IsBox catalog.jobs name :=
      fun {catalog} ⟨job, hjob, hin, _⟩ => catalog.box_defined ⟨job, hjob, hin⟩
    by_cases hold : m ∈ directMembers live name
    · exact absurd (hisbox hold).jobType hbox
    · have hnew : m ∈ directMembers candidate name := by
        by_contra hout
        exact hm (iff_of_false hold hout)
      obtain ⟨new, hn, htype⟩ := hisbox hnew
      obtain ⟨old, ho⟩ := Dict.mem_keys.mp hlive
      refine .inr ⟨old, new, ho, hn, fun heq => hbox ?_⟩
      rw [jobType, ho]
      exact congrArg some (heq.trans htype)

/-! ## The outermost boxes -/

variable {plan : Plan H} {live : Live V} {candidate : CatalogIR V}

theorem mem_restartBoxes : name ∈ restartBoxes plan live candidate ↔
    name ∈ runningBoxes plan candidate live.status ∧
      ¬∃ box ∈ runningBoxes plan candidate live.status, Inside live.catalog name box := by
  rw [restartBoxes, mem_sorted, Finset.mem_sdiff, List.mem_toFinset, Finset.mem_biUnion]
  refine and_congr_right fun _ => not_congr (exists_congr fun box => ?_)
  rw [List.mem_toFinset, mem_boxMembers]
  refine and_congr_right fun _ => ⟨fun ⟨_, b, hb, hinside⟩ => Finset.mem_singleton.mp hb ▸ hinside, fun hinside =>
    ⟨fun hself => ?_, box, Finset.mem_singleton_self box, hinside⟩⟩
  rw [Finset.mem_singleton.mp hself] at hinside
  exact live.catalog.box_acyclic box hinside

/-- A job is stopped when it is up and no box, and is changed, removed or inside a restarted box. -/
theorem mem_stopSet : name ∈ stopSet plan live candidate ↔
    ((name ∈ plan.changed.map Change.name ∨ name ∈ plan.removed) ∨
      name ∉ restartBoxes plan live candidate ∧
        ∃ box ∈ restartBoxes plan live candidate, Inside live.catalog name box ∨ Inside candidate name box) ∧
      name ∈ live.catalog.jobs.keys ∧ (∃ status ∈ live.status.get? name, status ∈ STOPPABLE) ∧
        jobType live.catalog name ≠ some "BOX" := by
  have hany : (live.status.get? name).any (fun status => decide (status ∈ STOPPABLE)) = true ↔
      ∃ status ∈ live.status.get? name, status ∈ STOPPABLE := by
    rw [Option.any_eq_true]
    simp only [decide_eq_true_eq, Option.mem_def]
  rw [stopSet, mem_sorted, Finset.mem_filter, hany, Finset.mem_union, Finset.mem_union, List.mem_toFinset, List.mem_append,
    mem_boxMembers, mem_boxMembers, or_assoc, ← and_or_left, ← exists_or]
  simp only [List.mem_toFinset, ← and_or_left]

/-! ## The tree they will run in -/

variable [DecidableEq V] [DecidableEq H] {digest : Payload V → H} {live_settings candidate_settings : Dict String V}

/-- The catalog that a box runs in after the update; a removed one stays in the live one. -/
def home (live candidate : CatalogIR V) (name : String) : CatalogIR V :=
  if name ∈ candidate.jobs.keys then candidate else live

/-- A running box that the update edits. -/
def Restructured (live : Live V) (candidate : CatalogIR V) (box : String) : Prop :=
  live.status.get? box = some RUNNING ∧ Edited live.catalog candidate box

/-- The update restarts the outermost boxes of the tree that they will run in, none of them within
another, and stops the jobs of these. -/
structure Outermost (live : Live V) (candidate : CatalogIR V) (plan : Plan H) : Prop where
  restarted : ∀ name, name ∈ restartBoxes plan live candidate ↔ Restructured live candidate name ∧
    ¬∃ box, Restructured live candidate box ∧ Inside (home live.catalog candidate name) name box
  once : ∀ name ∈ restartBoxes plan live candidate, ∀ box ∈ restartBoxes plan live candidate, ¬Inside candidate name box
  stopped : ∀ name, name ∈ stopSet plan live candidate ↔ name ∈ live.catalog.jobs.keys ∧
    jobType live.catalog name ≠ some "BOX" ∧ (∃ status ∈ live.status.get? name, status ∈ STOPPABLE) ∧
      (name ∈ plan.changed.map Change.name ∨ name ∈ plan.removed ∨
        ∃ box ∈ restartBoxes plan live candidate, Inside live.catalog name box ∨ Inside candidate name box)
  members : ∀ (catalog : CatalogIR V) (boxes : Finset String) (name : String), name ∈ boxMembers catalog boxes ↔
    name ∉ boxes ∧ ∃ box ∈ boxes, Inside catalog name box

section Diff

variable (live : Live V) (candidate : CatalogIR V) (live_settings candidate_settings : Dict String V)

theorem mem_restartBoxes_diff (hdigest : Function.Injective digest) :
    name ∈ restartBoxes (diff digest live.catalog candidate live_settings candidate_settings) live candidate ↔
      Restructured live candidate name ∧ ¬∃ box, Restructured live candidate box ∧ Inside live.catalog name box := by
  rw [mem_restartBoxes]
  simp only [mem_runningBoxes hdigest, Restructured]

/-- The update restarts the outermost boxes exactly when every edited running box that stays is inside
another one in the candidate as it is in the live tree. -/
theorem restartBoxes_outermost (hdigest : Function.Injective digest) :
    Outermost live candidate (diff digest live.catalog candidate live_settings candidate_settings) ↔
      ∀ name ∈ candidate.jobs.keys, Restructured live candidate name →
        ((∃ box, Restructured live candidate box ∧ Inside live.catalog name box) ↔
          ∃ box, Restructured live candidate box ∧ Inside candidate name box) := by
  have hrestart : ∀ name, name ∈ restartBoxes (diff digest live.catalog candidate live_settings candidate_settings) live
      candidate ↔ Restructured live candidate name ∧
        ¬∃ box, Restructured live candidate box ∧ Inside live.catalog name box :=
    fun name => mem_restartBoxes_diff live candidate live_settings candidate_settings hdigest
  constructor
  · intro h name hname hedited
    have hhome := h.restarted name
    rw [hrestart, home, if_pos hname] at hhome
    have hnot := and_congr_right_iff.mp hhome hedited
    exact not_iff_not.mp hnot
  · intro hagree
    have hrestarted : ∀ name, name ∈ restartBoxes (diff digest live.catalog candidate live_settings candidate_settings)
        live candidate ↔ Restructured live candidate name ∧
          ¬∃ box, Restructured live candidate box ∧ Inside (home live.catalog candidate name) name box := by
      intro name
      rw [hrestart]
      refine and_congr_right fun hedited => not_congr ?_
      by_cases hname : name ∈ candidate.jobs.keys
      · rw [home, if_pos hname]
        exact hagree name hname hedited
      · rw [home, if_neg hname]
    refine ⟨hrestarted, fun name hname box hbox hinside => ?_, fun name => ?_, fun _ _ _ => mem_boxMembers⟩
    · refine ((hrestarted name).mp hname).2 ⟨box, ((hrestarted box).mp hbox).1, ?_⟩
      rwa [home, if_pos hinside.mem_keys]
    · rw [mem_stopSet]
      constructor
      · rintro ⟨hwhy, hlive, hup, hbox⟩
        exact ⟨hlive, hbox, hup, or_assoc.mp (hwhy.imp_right And.right)⟩
      · rintro ⟨hlive, hbox, hup, hwhy⟩
        refine ⟨?_, hlive, hup, hbox⟩
        by_cases hroot : name ∈ restartBoxes (diff digest live.catalog candidate live_settings candidate_settings) live
          candidate
        · -- a restarted name that is no box yet is retyped, and so removed
          exact .inl (.inr (mem_removedNames.mpr (((hrestart name).mp hroot).1.2.lost hlive hbox)))
        · exact (or_assoc.mpr hwhy).imp_right fun hin => ⟨hroot, hin⟩

end Diff

/-- A box that loses its member is restarted on its own. -/
theorem restartBoxes_outermost_empty :
    Outermost ⟨fullBox, running "b"⟩ emptyBox (diff id fullBox emptyBox ∅ ∅) := by
  refine (restartBoxes_outermost ⟨fullBox, running "b"⟩ emptyBox ∅ ∅ Function.injective_id).mpr fun name hname _ => ?_
  obtain rfl : name = "b" := List.mem_singleton.mp hname
  have houter : ∀ {catalog : CatalogIR Unit} {box}, boxOf catalog "b" = none → ¬Inside catalog "b" box := by
    intro catalog box hnone hinside
    obtain ⟨outer, hmember, -⟩ := Relation.TransGen.head'_iff.mp hinside
    exact nomatch hnone.symm.trans (boxOf_eq_some.mpr hmember)
  exact ⟨fun ⟨_, _, h⟩ => absurd h (houter rfl), fun ⟨_, _, h⟩ => absurd h (houter rfl)⟩

/-- Two boxes with a member each. -/
def apartBoxes : CatalogIR Unit :=
  .ofJobs (((((∅ : Dict String (JobIR Unit)).set "a" (plainJob "BOX" none)).set "b" (plainJob "BOX" none)).set "x"
    (plainJob "CMD" (some "a"))).set "y" (plainJob "CMD" (some "b"))) (fun name => if name = "x" ∨ name = "y" then 1 else 0)
    (by decide)

/-- The second box in the first, with another member. -/
def nestedBoxes : CatalogIR Unit :=
  .ofJobs (((((∅ : Dict String (JobIR Unit)).set "a" (plainJob "BOX" none)).set "b" (plainJob "BOX" (some "a"))).set "x"
    (plainJob "CMD" (some "a"))).set "z" (plainJob "CMD" (some "b")))
    (fun name => if name = "z" then 2 else if name = "a" then 0 else 1) (by decide)

def bothRunning : Live Unit where
  catalog := apartBoxes
  status := (running "a").set "b" RUNNING

/-- A running box that moves into another one is restarted by itself and as its member. -/
theorem restartBoxes_nested :
    restartBoxes (diff id apartBoxes nestedBoxes ∅ ∅) bothRunning nestedBoxes = ["a", "b"] ∧ Inside nestedBoxes "b" "a" ∧
      ¬Outermost bothRunning nestedBoxes (diff id apartBoxes nestedBoxes ∅ ∅) := by
  have hroots : restartBoxes (diff id apartBoxes nestedBoxes ∅ ∅) bothRunning nestedBoxes = ["a", "b"] := by decide +kernel
  have hinside : Inside nestedBoxes "b" "a" := .single ⟨_, rfl, rfl⟩
  refine ⟨hroots, hinside, fun h => h.once "b" ?_ "a" ?_ hinside⟩
  · rw [hroots]
    decide
  · rw [hroots]
    decide

end Dsl41.Reload
