import Dsl41.Reload.Catalog

/-!
# The reload diff

`diff` compares a live catalog with a candidate by job name, through the digest of each job's
effective definition. `runningBoxes` reads off the plan which running boxes it edits.
-/

namespace Dsl41.Reload

open Infra

/-! ## Definition hashes -/

section Hash

variable {V κ : Type}

def RUNNING : String := "RUNNING"

/-- The settings that later starts and kills take. -/
def unhashed : List String := ["job_env", "kill_signals", "fw_default_interval_s"]

/-- A map as the digest writes it: by key. -/
def canonical (text : κ → String) (d : Dict κ V) : List (κ × V) :=
  d.entries.insertionSort fun a b => text a.1 ≤ text b.1

variable (V) in
/-- What a definition hash is taken over. -/
structure Payload where
  job : JobRecord V
  refs : List (Ref × Option (Definition V))
  settings : List (String × V)
deriving DecidableEq

def hashedSettings (settings : Dict String V) : Dict String V := settings.keep (· ∉ unhashed)

variable {H : Type} (digest : Payload V → H)

def definitionHash (job : JobRecord V) (catalog : CatalogIR V) (settings : Dict String V) : H :=
  digest {
    job
    refs := canonical Ref.text (references catalog job)
    settings := canonical id (hashedSettings settings) }

end Hash

/-! ## The plan -/

/-- A changed job; the reason is set when only what it refers to changed. -/
structure Change (H : Type) where
  name : String
  old_hash : H
  new_hash : H
  reason : Option String

structure Plan (H : Type) where
  added : List String
  removed : List String
  changed : List (Change H)
  unchanged : List String
  /-- The live box of each removed or changed job. -/
  prior_boxes : List (String × Option String)
  /-- The removed jobs that are boxes in the live catalog. -/
  edited_boxes : List String

section Diff

variable {V H : Type} [DecidableEq V] [DecidableEq H] (digest : Payload V → H)

/-- `_reason`: the indirect cause when the job's own record is the same. -/
def reasonOf (old : JobRecord V) (live : CatalogIR V) (live_settings : Dict String V) (new : JobRecord V)
    (candidate : CatalogIR V) (candidate_settings : Dict String V) : Option String :=
  if old ≠ new then none
  else
    let old_refs := references live old
    let new_refs := references candidate new
    let refs := ((old_refs.keys ++ new_refs.keys).dedup.insertionSort fun a b => a.text ≤ b.text).filterMap fun ref =>
      if (old_refs.get? ref).join = (new_refs.get? ref).join then none
      else
        let verb :=
          if ref ∉ new_refs.keys then "no longer referenced"
          else if ref ∉ old_refs.keys then "now referenced"
          else "changed"
        some (ref.1.text ++ " " ++ ref.2 ++ " " ++ verb)
    let settings := (sortedList (live_settings.keys ++ candidate_settings.keys).dedup).filterMap fun setting =>
      if setting ∈ unhashed ∨ live_settings.get? setting = candidate_settings.get? setting then none
      else some ("estate setting " ++ setting ++ " changed")
    some (String.intercalate "; " (refs ++ settings))

def jobType (catalog : CatalogIR V) (name : String) : Option String :=
  (catalog.jobs.get? name).map fun job => job.dump.job_type

def boxOf (catalog : CatalogIR V) (name : String) : Option String :=
  (catalog.jobs.get? name).bind fun job => job.dump.box_name

variable (live candidate : CatalogIR V)

/-- The names in both catalogs. -/
def shared : Finset String := live.jobs.keys.toFinset ∩ candidate.jobs.keys.toFinset

/-- `retyped_jobs`: the names in both catalogs whose job type differs. -/
def retypedJobs : Finset String := (shared live candidate).filter fun name => jobType live name ≠ jobType candidate name

def addedNames : List String :=
  sorted ((candidate.jobs.keys.toFinset \ live.jobs.keys.toFinset) ∪ retypedJobs live candidate)

def removedNames : List String :=
  sorted ((live.jobs.keys.toFinset \ candidate.jobs.keys.toFinset) ∪ retypedJobs live candidate)

def keptNames : List String := sorted (shared live candidate \ retypedJobs live candidate)

variable (live_settings candidate_settings : Dict String V)

/-- The change of a kept job, if its hash differs. -/
def changeOf (name : String) : Option (Change H) :=
  match live.jobs.get? name, candidate.jobs.get? name with
  | some old, some new =>
    let old_hash := definitionHash digest old.dump live live_settings
    let new_hash := definitionHash digest new.dump candidate candidate_settings
    if old_hash = new_hash then none
    else some {
      name, old_hash, new_hash
      reason := reasonOf old.dump live live_settings new.dump candidate candidate_settings }
  | _, _ => none

/-- Compare by job name. A job whose type changes is another job under the same name. -/
def diff : Plan H :=
  let removed := removedNames live candidate
  let kept := keptNames live candidate
  let changed := kept.filterMap (changeOf digest live candidate live_settings candidate_settings)
  let prior := removed ++ changed.map Change.name
  { added := addedNames live candidate
    removed, changed
    unchanged := kept.filter fun name =>
      (changeOf digest live candidate live_settings candidate_settings name).isNone
    prior_boxes := (prior.map fun name => (name, boxOf live name)).insertionSort fun a b => a.1 ≤ b.1
    edited_boxes := removed.filter fun name => jobType live name = some "BOX" }

/-! ## Running boxes -/

/-- The boxes that a plan edits. -/
def touched (plan : Plan H) (candidate : CatalogIR V) : List String :=
  let prior := fun name => (plan.prior_boxes.lookup name).join
  plan.edited_boxes ++ plan.added.filterMap (boxOf candidate) ++ plan.removed.filterMap prior ++
    plan.changed.flatMap fun change =>
      let old_box := prior change.name
      let new_box := boxOf candidate change.name
      if old_box ≠ new_box then old_box.toList ++ new_box.toList else []

/-- Boxes the plan edits structurally while `status` says the box is RUNNING. -/
def runningBoxes (plan : Plan H) (candidate : CatalogIR V) (status : Dict String String) : List String :=
  sorted ((touched plan candidate).filter fun box => status.get? box = some RUNNING).toFinset

end Diff

/-! ## The parts of a plan -/

variable {V H κ : Type} {live candidate : CatalogIR V} {name : String}

/-- The name is in both catalogs under different job types. -/
def Retyped (live candidate : CatalogIR V) (name : String) : Prop :=
  ∃ old new, live.jobs.get? name = some old ∧ candidate.jobs.get? name = some new ∧ old.dump.job_type ≠ new.dump.job_type

/-- The name is the same kind of job in both catalogs. -/
def Kept (live candidate : CatalogIR V) (name : String) : Prop :=
  ∃ old new, live.jobs.get? name = some old ∧ candidate.jobs.get? name = some new ∧ old.dump.job_type = new.dump.job_type

/-- The name is a job of the one catalog only, or another job in it. -/
def Gained (live candidate : CatalogIR V) (name : String) : Prop :=
  name ∈ candidate.jobs.keys ∧ name ∉ live.jobs.keys ∨ Retyped live candidate name

def Lost (live candidate : CatalogIR V) (name : String) : Prop :=
  name ∈ live.jobs.keys ∧ name ∉ candidate.jobs.keys ∨ Retyped live candidate name

theorem gained_and_lost : Gained live candidate name ∧ Lost live candidate name ↔ Retyped live candidate name := by
  refine ⟨?_, fun h => ⟨.inr h, .inr h⟩⟩
  rintro ⟨⟨hin, hout⟩ | h, hlost⟩
  · exact hlost.resolve_left fun hlive => hout hlive.1
  · exact h

theorem Kept.not_retyped (h : Kept live candidate name) : ¬Retyped live candidate name := by
  obtain ⟨old, new, ho, hn, htype⟩ := h
  rintro ⟨old', new', ho', hn', hne⟩
  obtain rfl := Option.some.inj (ho.symm.trans ho')
  obtain rfl := Option.some.inj (hn.symm.trans hn')
  exact hne htype

theorem Kept.not_gained (h : Kept live candidate name) : ¬Gained live candidate name := by
  obtain ⟨old, new, ho, -⟩ := id h
  rintro (⟨-, hout⟩ | hretyped)
  · exact hout (Dict.mem_keys.mpr ⟨old, ho⟩)
  · exact h.not_retyped hretyped

theorem Kept.not_lost (h : Kept live candidate name) : ¬Lost live candidate name := by
  obtain ⟨old, new, -, hn, -⟩ := id h
  rintro (⟨-, hout⟩ | hretyped)
  · exact hout (Dict.mem_keys.mpr ⟨new, hn⟩)
  · exact h.not_retyped hretyped

theorem gained_lost_or_kept (h : name ∈ live.jobs.keys ∨ name ∈ candidate.jobs.keys) :
    Gained live candidate name ∨ Lost live candidate name ∨ Kept live candidate name := by
  by_cases hlive : name ∈ live.jobs.keys
  · by_cases hcandidate : name ∈ candidate.jobs.keys
    · obtain ⟨old, ho⟩ := Dict.mem_keys.mp hlive
      obtain ⟨new, hn⟩ := Dict.mem_keys.mp hcandidate
      by_cases htype : old.dump.job_type = new.dump.job_type
      · exact .inr (.inr ⟨old, new, ho, hn, htype⟩)
      · exact .inl (.inr ⟨old, new, ho, hn, htype⟩)
    · exact .inr (.inl (.inl ⟨hlive, hcandidate⟩))
  · exact .inl (.inl ⟨h.resolve_left hlive, hlive⟩)

theorem mem_shared : name ∈ shared live candidate ↔
    ∃ old new, live.jobs.get? name = some old ∧ candidate.jobs.get? name = some new := by
  rw [shared, Finset.mem_inter, List.mem_toFinset, List.mem_toFinset, Dict.mem_keys, Dict.mem_keys]
  exact ⟨fun ⟨⟨old, ho⟩, new, hn⟩ => ⟨old, new, ho, hn⟩, fun ⟨old, new, ho, hn⟩ => ⟨⟨old, ho⟩, new, hn⟩⟩

theorem mem_retypedJobs : name ∈ retypedJobs live candidate ↔ Retyped live candidate name := by
  rw [retypedJobs, Finset.mem_filter, mem_shared]
  constructor
  · rintro ⟨⟨old, new, ho, hn⟩, htype⟩
    rw [jobType, jobType, ho, hn] at htype
    exact ⟨old, new, ho, hn, fun heq => htype (congrArg some heq)⟩
  · rintro ⟨old, new, ho, hn, htype⟩
    refine ⟨⟨old, new, ho, hn⟩, ?_⟩
    rw [jobType, jobType, ho, hn]
    exact fun heq => htype (Option.some.inj heq)

theorem mem_addedNames : name ∈ addedNames live candidate ↔ Gained live candidate name := by
  rw [addedNames, mem_sorted, Finset.mem_union, Finset.mem_sdiff, List.mem_toFinset, List.mem_toFinset, mem_retypedJobs,
    Gained]

theorem mem_removedNames : name ∈ removedNames live candidate ↔ Lost live candidate name := by
  rw [removedNames, mem_sorted, Finset.mem_union, Finset.mem_sdiff, List.mem_toFinset, List.mem_toFinset, mem_retypedJobs,
    Lost]

theorem mem_keptNames : name ∈ keptNames live candidate ↔ Kept live candidate name := by
  rw [keptNames, mem_sorted, Finset.mem_sdiff, mem_shared, mem_retypedJobs]
  constructor
  · rintro ⟨⟨old, new, ho, hn⟩, hsame⟩
    exact ⟨old, new, ho, hn, not_not.mp fun htype => hsame ⟨old, new, ho, hn, htype⟩⟩
  · rintro ⟨old, new, ho, hn, htype⟩
    exact ⟨⟨old, new, ho, hn⟩, Kept.not_retyped ⟨old, new, ho, hn, htype⟩⟩

/-! ## Edited boxes -/

/-- The direct members of a box, each with its type: a retyped member is another one. -/
def directMembers (catalog : CatalogIR V) (box : String) : Set (String × String) :=
  {m | ∃ job, catalog.jobs.get? m.1 = some job ∧ job.dump.box_name = some box ∧ job.dump.job_type = m.2}

/-- A structural edit: the box goes, or it gets other members. -/
def Edited (live candidate : CatalogIR V) (box : String) : Prop :=
  jobType live box = some "BOX" ∧ Lost live candidate box ∨ directMembers live box ≠ directMembers candidate box

theorem lookup_pairs {f : String → Option String} : ∀ {l : List (String × Option String)},
    (∀ e ∈ l, e.2 = f e.1) → (∃ e ∈ l, e.1 = name) → l.lookup name = some (f name)
  | [], _, h => by
    obtain ⟨e, he, -⟩ := h
    cases he
  | e :: l, hall, h => by
    rw [List.lookup_cons]
    by_cases heq : name = e.1
    · rw [beq_iff_eq.mpr heq, heq]
      exact congrArg some (hall e List.mem_cons_self)
    · rw [beq_eq_false_iff_ne.mpr heq]
      refine lookup_pairs (fun e' he' => hall e' (List.mem_cons_of_mem _ he')) ?_
      obtain ⟨e', he', hname⟩ := h
      rcases List.mem_cons.mp he' with rfl | he'
      · exact absurd hname.symm heq
      · exact ⟨e', he', hname⟩

theorem boxOf_eq_some {catalog : CatalogIR V} {box : String} : boxOf catalog name = some box ↔
    ∃ job, catalog.jobs.get? name = some job ∧ job.dump.box_name = some box := Option.bind_eq_some_iff

/-- A member that one catalog has and the other does not: its job goes, or moves. -/
theorem member_moves {catalog other : CatalogIR V} {box : String} {m : String × String}
    (h : m ∈ directMembers catalog box) (hother : m ∉ directMembers other box) :
    boxOf catalog m.1 = some box ∧
      (Lost catalog other m.1 ∨
        ∃ old new, catalog.jobs.get? m.1 = some old ∧ other.jobs.get? m.1 = some new ∧
          old.dump.job_type = new.dump.job_type ∧ boxOf other m.1 ≠ some box) := by
  obtain ⟨job, hjob, hbox, htype⟩ := h
  refine ⟨boxOf_eq_some.mpr ⟨job, hjob, hbox⟩, ?_⟩
  cases hnew : other.jobs.get? m.1 with
  | none => exact .inl (.inl ⟨Dict.mem_keys.mpr ⟨job, hjob⟩, Dict.get?_eq_none.mp hnew⟩)
  | some new =>
    by_cases hsame : job.dump.job_type = new.dump.job_type
    · refine .inr ⟨job, new, hjob, rfl, hsame, fun hin => hother ?_⟩
      obtain ⟨new', hnew', hbox'⟩ := boxOf_eq_some.mp hin
      obtain rfl := Option.some.inj (hnew.symm.trans hnew')
      exact ⟨new, hnew, hbox', hsame.symm.trans htype⟩
    · exact .inl (.inr ⟨job, new, hjob, hnew, hsame⟩)

/-- A job that goes takes its membership along. -/
theorem lost_member {catalog other : CatalogIR V} {box : String} (hlost : Lost catalog other name)
    (hbox : boxOf catalog name = some box) : directMembers catalog box ≠ directMembers other box := by
  obtain ⟨job, hjob, hin⟩ := boxOf_eq_some.mp hbox
  have hmem : (name, job.dump.job_type) ∈ directMembers catalog box := ⟨job, hjob, hin, rfl⟩
  intro heq
  rw [heq] at hmem
  obtain ⟨new, hnew, -, htype⟩ := hmem
  rcases hlost with ⟨-, hnot⟩ | ⟨old', new', ho', hn', hne⟩
  · exact hnot (Dict.mem_keys.mpr ⟨new, hnew⟩)
  · obtain rfl := Option.some.inj (hjob.symm.trans ho')
    obtain rfl := Option.some.inj (hnew.symm.trans hn')
    exact hne htype.symm

/-- So does a job that moves. -/
theorem moved_member {catalog other : CatalogIR V} {box : String} (hbox : boxOf catalog name = some box)
    (hother : boxOf other name ≠ some box) : directMembers catalog box ≠ directMembers other box := by
  obtain ⟨job, hjob, hin⟩ := boxOf_eq_some.mp hbox
  have hmem : (name, job.dump.job_type) ∈ directMembers catalog box := ⟨job, hjob, hin, rfl⟩
  intro heq
  rw [heq] at hmem
  obtain ⟨new, hnew, hbox', -⟩ := hmem
  exact hother (boxOf_eq_some.mpr ⟨new, hnew, hbox'⟩)

theorem lost_comm : Lost candidate live name ↔ Gained live candidate name := by
  have hretyped : ∀ {a b : CatalogIR V}, Retyped a b name → Retyped b a name :=
    fun ⟨old, new, ho, hn, hne⟩ => ⟨new, old, hn, ho, fun heq => hne heq.symm⟩
  exact or_congr_right ⟨hretyped, hretyped⟩

theorem mem_touched {plan : Plan H} {box : String} : box ∈ touched plan candidate ↔
    box ∈ plan.edited_boxes ∨ (∃ name ∈ plan.added, boxOf candidate name = some box) ∨
      (∃ name ∈ plan.removed, (plan.prior_boxes.lookup name).join = some box) ∨
        ∃ name ∈ plan.changed.map Change.name, (plan.prior_boxes.lookup name).join ≠ boxOf candidate name ∧
          ((plan.prior_boxes.lookup name).join = some box ∨ boxOf candidate name = some box) := by
  unfold touched
  simp only [List.mem_append, List.mem_filterMap, List.mem_flatMap, or_assoc, List.mem_map, exists_exists_and_eq_and]
  refine or_congr_right (or_congr_right (or_congr_right (exists_congr fun change => and_congr_right fun _ => ?_)))
  split
  · next hne => simp [hne, Option.mem_toList]
  · next heq => simp [not_not.mp heq]

/-! ## What a hash compares -/

/-- Maps that are written by key are written alike when they hold the same. -/
theorem canonical_eq {text : κ → String} [DecidableEq κ] (htext : Function.Injective text) {d d' : Dict κ V} :
    canonical text d = canonical text d' ↔ ∀ k, d.get? k = d'.get? k := by
  have hmem : ∀ {d : Dict κ V} {k v}, (k, v) ∈ canonical text d ↔ d.get? k = some v := fun {d k v} => by
    rw [canonical, List.mem_insertionSort, Dict.get?_eq_some]
  constructor
  · intro h k
    cases hk : d'.get? k with
    | none =>
      by_contra hsome
      obtain ⟨v, hv⟩ := Option.ne_none_iff_exists'.mp hsome
      have hin := hmem.mpr hv
      rw [h, hmem, hk] at hin
      cases hin
    | some v =>
      have hin := hmem.mpr hk
      rwa [← h, hmem] at hin
  · intro h
    have hnodup : ∀ d : Dict κ V, d.entries.Nodup := fun d => List.Nodup.of_map Prod.fst d.nodup
    have hperm : d.entries.Perm d'.entries := (List.perm_ext_iff_of_nodup (hnodup d) (hnodup d')).mpr fun e => by
      rw [← Dict.get?_eq_some, ← Dict.get?_eq_some, h]
    have : Std.Total (fun a b : κ × V => text a.1 ≤ text b.1) := ⟨fun a b => le_total _ _⟩
    have : IsTrans (κ × V) (fun a b => text a.1 ≤ text b.1) := ⟨fun a b c => le_trans⟩
    refine List.Perm.eq_of_pairwise (fun a b ha hb hab hba => ?_) (List.pairwise_insertionSort _ _)
      (List.pairwise_insertionSort _ _) ((List.perm_insertionSort _ _).trans (hperm.trans (List.perm_insertionSort _ _).symm))
    have hkey : a.1 = b.1 := htext (le_antisymm hab hba)
    have hva := hmem.mp ha
    have hvb := hmem.mp hb
    rw [hkey, h, hvb] at hva
    exact Prod.ext hkey (Option.some.inj hva).symm

theorem Ref.text_injective : Function.Injective Ref.text := by
  rintro ⟨kind, name⟩ ⟨kind', name'⟩ h
  have hchars := congrArg String.toList h
  simp only [Ref.text, String.toList_append] at hchars
  cases kind <;> cases kind' <;> simp [Kind.text, String.toList_inj] at hchars ⊢
  all_goals assumption

/-- The two jobs are defined alike: by record, by every entity they refer to and by the hashed settings. -/
structure SameDefinition (old : JobRecord V) (live : CatalogIR V) (live_settings : Dict String V) (new : JobRecord V)
    (candidate : CatalogIR V) (candidate_settings : Dict String V) : Prop where
  record : old = new
  refers : ∀ ref, Refers live old ref ↔ Refers candidate new ref
  entities : ∀ ref, Refers live old ref → definition live ref = definition candidate ref
  settings : ∀ setting, setting ∉ unhashed → live_settings.get? setting = candidate_settings.get? setting

variable {digest : Payload V → H} {old new : JobRecord V} {live_settings candidate_settings : Dict String V}

theorem get?_hashedSettings {settings : Dict String V} {setting : String} : (hashedSettings settings).get? setting =
    if setting ∈ unhashed then none else settings.get? setting := by
  have hfilter : (hashedSettings settings).get? setting =
      if decide (setting ∉ unhashed) then settings.get? setting else none :=
    Dict.getIn_filter (p := fun setting => decide (setting ∉ unhashed))
  rw [hfilter]
  by_cases h : setting ∈ unhashed
  · rw [if_pos h, if_neg (by simpa using h)]
  · rw [if_neg h, if_pos (by simpa using h)]

theorem references_agree : (∀ ref, (references live old).get? ref = (references candidate new).get? ref) ↔
    (∀ ref, Refers live old ref ↔ Refers candidate new ref) ∧
      ∀ ref, Refers live old ref → definition live ref = definition candidate ref := by
  constructor
  · intro h
    have hsome : ∀ {ref d}, Refers live old ref ∧ d = definition live ref ↔
        Refers candidate new ref ∧ d = definition candidate ref := fun {ref d} => by
      rw [← references_get?, ← references_get?, h]
    exact ⟨fun ref => ⟨fun href => (hsome.mp ⟨href, rfl⟩).1, fun href => (hsome.mpr ⟨href, rfl⟩).1⟩,
      fun ref href => (hsome.mp ⟨href, rfl⟩).2⟩
  · rintro ⟨hrefers, hdef⟩ ref
    refine Option.ext fun d => ?_
    rw [references_get?, references_get?, hrefers]
    exact and_congr_right fun href => by rw [hdef ref ((hrefers ref).mpr href)]

/-- A collision-free digest tells different definitions apart. -/
theorem definitionHash_eq (hdigest : Function.Injective digest) :
    definitionHash digest old live live_settings = definitionHash digest new candidate candidate_settings ↔
      SameDefinition old live live_settings new candidate candidate_settings := by
  rw [definitionHash, definitionHash, hdigest.eq_iff, Payload.mk.injEq, canonical_eq Ref.text_injective,
    canonical_eq Function.injective_id, references_agree]
  have hsettings : (∀ setting, (hashedSettings live_settings).get? setting = (hashedSettings candidate_settings).get? setting) ↔
      ∀ setting, setting ∉ unhashed → live_settings.get? setting = candidate_settings.get? setting := by
    simp only [get?_hashedSettings]
    refine forall_congr' fun setting => ?_
    split
    · next h => simp [h]
    · next h => simp [h]
  rw [hsettings]
  constructor
  · rintro ⟨hrecord, ⟨hrefers, hdef⟩, hset⟩
    exact ⟨hrecord, hrefers, hdef, hset⟩
  · intro h
    exact ⟨h.record, ⟨h.refers, h.entities⟩, h.settings⟩

/-! ## The plan of a diff -/

variable [DecidableEq V] [DecidableEq H]

theorem changeOf_isNone (hkept : Kept live candidate name) :
    changeOf digest live candidate live_settings candidate_settings name = none ↔
      ∃ old new, live.jobs.get? name = some old ∧ candidate.jobs.get? name = some new ∧
        definitionHash digest old.dump live live_settings = definitionHash digest new.dump candidate candidate_settings := by
  obtain ⟨old, new, ho, hn, -⟩ := hkept
  rw [changeOf, ho, hn]
  dsimp only
  constructor
  · intro h
    by_contra hne
    rw [if_neg fun heq => hne ⟨old, new, rfl, rfl, heq⟩] at h
    cases h
  · rintro ⟨old', new', ⟨⟩, ⟨⟩, heq⟩
    exact if_pos heq

theorem changeOf_name {change : Change H}
    (h : changeOf digest live candidate live_settings candidate_settings name = some change) : change.name = name := by
  unfold changeOf at h
  split at h
  · dsimp only at h
    split at h
    · cases h
    · cases h
      rfl
  · cases h

/-- The parts of a plan by job name: only a retyped job is in two of them. -/
structure Parts (live candidate : CatalogIR V) (plan : Plan H) : Prop where
  added : ∀ name, name ∈ plan.added ↔ Gained live candidate name
  removed : ∀ name, name ∈ plan.removed ↔ Lost live candidate name
  kept : ∀ name, name ∈ plan.changed.map Change.name ∨ name ∈ plan.unchanged ↔ Kept live candidate name
  once : ∀ name, ¬(name ∈ plan.changed.map Change.name ∧ name ∈ plan.unchanged)
  retyped : ∀ name, name ∈ plan.added ∧ name ∈ plan.removed ↔ Retyped live candidate name
  apart : ∀ name, name ∈ plan.changed.map Change.name ∨ name ∈ plan.unchanged → name ∉ plan.added ∧ name ∉ plan.removed
  all : ∀ name, name ∈ live.jobs.keys ∨ name ∈ candidate.jobs.keys →
    name ∈ plan.added ∨ name ∈ plan.removed ∨ name ∈ plan.changed.map Change.name ∨ name ∈ plan.unchanged

theorem mem_changed : name ∈ (diff digest live candidate live_settings candidate_settings).changed.map Change.name ↔
    Kept live candidate name ∧ changeOf digest live candidate live_settings candidate_settings name ≠ none := by
  rw [List.mem_map]
  constructor
  · rintro ⟨change, hmem, rfl⟩
    obtain ⟨name, hkept, hchange⟩ := List.mem_filterMap.mp hmem
    rw [changeOf_name hchange]
    exact ⟨mem_keptNames.mp hkept, fun hnone => nomatch hnone.symm.trans hchange⟩
  · rintro ⟨hkept, hne⟩
    obtain ⟨change, hchange⟩ := Option.ne_none_iff_exists'.mp hne
    exact ⟨change, List.mem_filterMap.mpr ⟨name, mem_keptNames.mpr hkept, hchange⟩, changeOf_name hchange⟩

theorem mem_unchanged : name ∈ (diff digest live candidate live_settings candidate_settings).unchanged ↔
    Kept live candidate name ∧ changeOf digest live candidate live_settings candidate_settings name = none := by
  show name ∈ (keptNames live candidate).filter _ ↔ _
  rw [List.mem_filter, mem_keptNames, Option.isNone_iff_eq_none]

theorem mem_kept : name ∈ (diff digest live candidate live_settings candidate_settings).changed.map Change.name ∨
    name ∈ (diff digest live candidate live_settings candidate_settings).unchanged ↔ Kept live candidate name := by
  rw [mem_changed, mem_unchanged, ← and_or_left, and_iff_left (em' _)]

theorem diff_parts : Parts live candidate (diff digest live candidate live_settings candidate_settings) where
  added _ := mem_addedNames
  removed _ := mem_removedNames
  kept _ := mem_kept
  once _ h := (mem_changed.mp h.1).2 (mem_unchanged.mp h.2).2
  retyped _ := (and_congr mem_addedNames mem_removedNames).trans gained_and_lost
  apart _ h := ⟨fun hadded => (mem_kept.mp h).not_gained (mem_addedNames.mp hadded),
    fun hremoved => (mem_kept.mp h).not_lost (mem_removedNames.mp hremoved)⟩
  all _ h := by
    rcases gained_lost_or_kept h with hgained | hlost | hkept
    · exact .inl (mem_addedNames.mpr hgained)
    · exact .inr (.inl (mem_removedNames.mpr hlost))
    · exact .inr (.inr (mem_kept.mpr hkept))

/-- A kept job is unchanged when it is defined alike. -/
theorem unchanged_iff (hdigest : Function.Injective digest) :
    name ∈ (diff digest live candidate live_settings candidate_settings).unchanged ↔
      Kept live candidate name ∧ ∃ old new, live.jobs.get? name = some old ∧ candidate.jobs.get? name = some new ∧
        SameDefinition old.dump live live_settings new.dump candidate candidate_settings := by
  rw [mem_unchanged]
  refine and_congr_right fun hkept => ?_
  rw [changeOf_isNone hkept]
  simp only [definitionHash_eq hdigest]

/-! ## The edited boxes of a plan -/

/-- The plan knows the live box of a removed or changed job. -/
theorem prior_eq {plan : Plan H} (hplan : plan = diff digest live candidate live_settings candidate_settings)
    (h : name ∈ plan.removed ∨ name ∈ plan.changed.map Change.name) :
    (plan.prior_boxes.lookup name).join = boxOf live name := by
  subst hplan
  have hmem : ∀ e, e ∈ (diff digest live candidate live_settings candidate_settings).prior_boxes ↔
      ∃ n ∈ (diff digest live candidate live_settings candidate_settings).removed ++
        (diff digest live candidate live_settings candidate_settings).changed.map Change.name, (n, boxOf live n) = e := by
    intro e
    show e ∈ List.insertionSort _ _ ↔ _
    rw [List.mem_insertionSort, List.mem_map]
    rfl
  rw [lookup_pairs (f := boxOf live) (fun e he => ?_) ⟨_, (hmem _).mpr ⟨name, List.mem_append.mpr h, rfl⟩, rfl⟩]
  · rfl
  · obtain ⟨n, -, rfl⟩ := (hmem e).mp he
    rfl

/-- The running boxes of a plan are those with a structural edit. -/
theorem mem_runningBoxes (hdigest : Function.Injective digest) {status : Dict String String} {box : String} :
    box ∈ runningBoxes (diff digest live candidate live_settings candidate_settings) candidate status ↔
      status.get? box = some RUNNING ∧ Edited live candidate box := by
  unfold runningBoxes
  rw [mem_sorted, List.mem_toFinset, List.mem_filter, decide_eq_true_eq, and_comm]
  refine and_congr_right fun _ => ?_
  rw [mem_touched]
  generalize hplan : diff digest live candidate live_settings candidate_settings = plan
  have hparts : Parts live candidate plan := hplan ▸ diff_parts
  have hprior : ∀ {name}, name ∈ plan.removed ∨ name ∈ plan.changed.map Change.name →
      (plan.prior_boxes.lookup name).join = boxOf live name := prior_eq hplan.symm
  constructor
  · rintro (hedited | ⟨name, hname, hbox⟩ | ⟨name, hname, hbox⟩ | ⟨name, hname, hne, hbox⟩)
    · subst hplan
      obtain ⟨hlost, hbox⟩ := List.mem_filter.mp hedited
      exact .inl ⟨of_decide_eq_true hbox, mem_removedNames.mp hlost⟩
    · exact .inr (lost_member (lost_comm.mpr ((hparts.added name).mp hname)) hbox).symm
    · rw [hprior (.inl hname)] at hbox
      exact .inr (lost_member ((hparts.removed name).mp hname) hbox)
    · rw [hprior (.inr hname)] at hne hbox
      rcases hbox with hbox | hbox
      · exact .inr (moved_member hbox fun h => hne (hbox.trans h.symm))
      · exact .inr (moved_member hbox fun h => hne (h.trans hbox.symm)).symm
  · -- a kept job that moves has another record, and so another hash
    have hchanged : ∀ {name}, Kept live candidate name → boxOf live name ≠ boxOf candidate name →
        name ∈ plan.changed.map Change.name := by
      intro name hkept hne
      refine ((hparts.kept name).mpr hkept).resolve_right fun hsame => hne ?_
      rw [← hplan] at hsame
      obtain ⟨-, old, new, ho, hn, hdef⟩ := (unchanged_iff hdigest).mp hsame
      rw [boxOf, boxOf, ho, hn]
      exact congrArg JobRecord.box_name hdef.record
    rintro (⟨hbox, hlost⟩ | hmembers)
    · subst hplan
      exact .inl (List.mem_filter.mpr ⟨mem_removedNames.mpr hlost, decide_eq_true hbox⟩)
    · obtain ⟨m, hm⟩ : ∃ m, ¬(m ∈ directMembers live box ↔ m ∈ directMembers candidate box) := by
        by_contra hall
        exact hmembers (Set.ext fun m => not_not.mp fun h => hall ⟨m, h⟩)
      by_cases hin : m ∈ directMembers live box
      · obtain ⟨hbox, hlost | ⟨old, new, ho, hn, htype, hne⟩⟩ := member_moves hin fun h => hm (iff_of_true hin h)
        · have hremoved := (hparts.removed m.1).mpr hlost
          exact .inr (.inr (.inl ⟨m.1, hremoved, (hprior (.inl hremoved)).trans hbox⟩))
        · have hmoved := hchanged ⟨old, new, ho, hn, htype⟩ fun h => hne (h.symm.trans hbox)
          refine .inr (.inr (.inr ⟨m.1, hmoved, ?_, .inl ((hprior (.inr hmoved)).trans hbox)⟩))
          rw [hprior (.inr hmoved), hbox]
          exact Ne.symm hne
      · have hnew : m ∈ directMembers candidate box := by
          by_contra hout
          exact hm (iff_of_false hin hout)
        obtain ⟨hbox, hlost | ⟨new, old, hn, ho, htype, hne⟩⟩ := member_moves hnew hin
        · exact .inr (.inl ⟨m.1, (hparts.added m.1).mpr (lost_comm.mp hlost), hbox⟩)
        · have hmoved := hchanged ⟨old, new, ho, hn, htype.symm⟩ fun h => hne (h.trans hbox)
          refine .inr (.inr (.inr ⟨m.1, hmoved, ?_, .inr hbox⟩))
          rw [hprior (.inr hmoved), hbox]
          exact hne

/-! ## Small catalogs -/

/-- The status map of one running job. -/
def running (name : String) : Dict String String := (∅ : Dict String String).set name RUNNING

/-- The same name as a box. -/
def emptyBox : CatalogIR Unit := .ofJobs ((∅ : Dict String (JobIR Unit)).set "b" (plainJob "BOX" none)) (fun _ => 0) (by decide)

/-- The box with a member. -/
def fullBox : CatalogIR Unit :=
  .ofJobs (((∅ : Dict String (JobIR Unit)).set "b" (plainJob "BOX" none)).set "m" (plainJob "CMD" (some "b")))
    (fun name => if name = "m" then 1 else 0) (by decide)

end Dsl41.Reload
