import Mathlib.Data.List.Sort
import Mathlib.Data.String.Basic
import Dsl41.Infra.Chase
import Dsl41.Jil.Typed

/-!
# The catalogs of a reload

What the diff of two catalogs reads of them: the jobs with the names they refer to, and the entities
behind the names. `references` follows the names through extended calendars and machine pools.
-/

namespace Dsl41.Reload

open Infra

/-! ## Entities -/

/-- A definition with its position in the source. -/
structure Placed (α : Type) where
  dump : α
  span : Option (Nat × Nat) := none
deriving DecidableEq

inductive CalendarKind
  | standard | extended
deriving DecidableEq

section Entities

-- the values of settings, and of the fields that are compared only
variable (V : Type)

structure CalendarIR where
  kind : CalendarKind
  attrs : List (String × String)
  others : V
deriving DecidableEq

structure MachineIR where
  members : List String
  others : V
deriving DecidableEq

/-- A job's record, without its positions. -/
structure JobRecord where
  job_type : String
  box_name : Option String := none
  run_calendar : Option String := none
  exclude_calendar : Option String := none
  machine : Option String := none
  resources : List String := []
  others : V
deriving DecidableEq

/-- The definition that a reference leads to. -/
inductive Definition
  | calendar (cal : CalendarIR V)
  | cycle (others : V)
  | machine (mach : MachineIR V)
  | resource (others : V)
deriving DecidableEq

abbrev JobIR := Placed (JobRecord V)

variable {V}

/-- The name is a box of the jobs. -/
def IsBox (jobs : Dict String (JobIR V)) (name : String) : Prop :=
  ∃ job, jobs.get? name = some job ∧ job.dump.job_type = "BOX"

/-- The first job is a member of the second. -/
def MemberOf (jobs : Dict String (JobIR V)) (name box : String) : Prop :=
  ∃ job, jobs.get? name = some job ∧ job.dump.box_name = some box

variable (V) in
/-- A catalog; its validator refuses a box that is none and a box that contains itself. -/
structure CatalogIR where
  jobs : Dict String (JobIR V)
  calendars : Dict String (Placed (CalendarIR V)) := ∅
  cycles : Dict String (Placed V) := ∅
  machines : Dict String (Placed (MachineIR V)) := ∅
  resources : Dict String (Placed V) := ∅
  box_defined : ∀ {name box}, MemberOf jobs name box → IsBox jobs box
  box_acyclic : ∀ name, ¬Relation.TransGen (MemberOf jobs) name name

/-- Every box is a box of the jobs, and of lower rank than its members. -/
def Ranked (jobs : Dict String (JobIR V)) (rank : String → Nat) : Prop :=
  ∀ e ∈ jobs.entries, ∀ box ∈ e.2.dump.box_name,
    (jobs.get? box).any (fun job => job.dump.job_type = "BOX") = true ∧ rank box < rank e.1

instance {jobs : Dict String (JobIR V)} {rank : String → Nat} : Decidable (Ranked jobs rank) :=
  inferInstanceAs (Decidable (∀ e ∈ jobs.entries, ∀ box ∈ e.2.dump.box_name, _ ∧ _))

theorem Ranked.member {jobs : Dict String (JobIR V)} {rank : String → Nat} (h : Ranked jobs rank) {name box : String}
    (hmember : MemberOf jobs name box) : IsBox jobs box ∧ rank box < rank name := by
  obtain ⟨job, hjob, hbox⟩ := hmember
  obtain ⟨hany, hlt⟩ := h (name, job) (Dict.get?_eq_some.mp hjob) box hbox
  obtain ⟨target, htarget, htype⟩ := (Option.any_eq_true _ _).mp hany
  exact ⟨⟨target, htarget, of_decide_eq_true htype⟩, hlt⟩

/-- A catalog of ranked jobs: along a chain of boxes the rank falls. -/
def CatalogIR.ofJobs (jobs : Dict String (JobIR V)) (rank : String → Nat) (h : Ranked jobs rank) : CatalogIR V where
  jobs
  box_defined hmember := (h.member hmember).1
  box_acyclic name hcycle := by
    have hfalls : ∀ {a b}, Relation.TransGen (MemberOf jobs) a b → rank b < rank a := by
      intro a b hchain
      induction hchain with
      | single hmember => exact (h.member hmember).2
      | tail _ hmember ih => exact lt_trans (h.member hmember).2 ih
    exact lt_irrefl _ (hfalls hcycle)

/-- A job with a type and a box, and nothing else. -/
def plainJob (job_type : String) (box_name : Option String) : JobIR Unit := ⟨{ job_type, box_name, others := () }, none⟩

end Entities

/-! ## References -/

inductive Kind
  | calendar | cycle | machine | resource
deriving DecidableEq

def Kind.text : Kind → String
  | .calendar => "calendar"
  | .cycle => "cycle"
  | .machine => "machine"
  | .resource => "resource"

/-- `kind:name`. -/
abbrev Ref := Kind × String

def Ref.text (ref : Ref) : String := ref.1.text ++ ":" ++ ref.2

/-- `_split_machines`. -/
def splitMachines (raw : Option String) : List String :=
  ((Jil.commaParts (raw.getD "").toList).map String.ofList).filter (· ≠ "")

variable {V : Type} (catalog : CatalogIR V)

/-- What a name is defined as, if it is. -/
def definition (ref : Ref) : Option (Definition V) :=
  match ref.1 with
  | .calendar => (catalog.calendars.get? ref.2).map fun cal => .calendar cal.dump
  | .cycle => (catalog.cycles.get? ref.2).map fun cyc => .cycle cyc.dump
  | .machine => (catalog.machines.get? ref.2).map fun mach => .machine mach.dump
  | .resource => (catalog.resources.get? ref.2).map fun res => .resource res.dump

/-- A non-empty name, as a reference. -/
def named (kind : Kind) (name : String) : List Ref := if name = "" then [] else [(kind, name)]

/-- The names that a definition goes on to: an extended calendar's holidays and cycle, a pool's members. -/
def follows (ref : Ref) : List Ref :=
  match definition catalog ref with
  | some (.calendar cal) =>
    if cal.kind = .extended then
      named .calendar (Jil.unquoteJilValue ((cal.attrs.lookup "holcal").getD "")) ++
        named .cycle (Jil.unquoteJilValue ((cal.attrs.lookup "cyccal").getD ""))
    else []
  | some (.machine mach) => mach.members.map fun member => (.machine, member)
  | _ => []

/-- The calendars and machines that a job names. -/
def JobRecord.roots (job : JobRecord V) : List Ref :=
  named .calendar (job.run_calendar.getD "") ++ named .calendar (job.exclude_calendar.getD "") ++
    (splitMachines job.machine).map fun name => (.machine, name)

/-- The keys with a definition. -/
def definedRefs : Finset Ref :=
  (catalog.calendars.keys.map fun name => (Kind.calendar, name)).toFinset ∪
    (catalog.machines.keys.map fun name => (Kind.machine, name)).toFinset

/-- `_references`: the definition of each referenced entity, none when undefined. -/
def references (job : JobRecord V) : Dict Ref (Option (Definition V)) :=
  let refs := chaseAll (definition catalog) (follows catalog) ((definedRefs catalog).card + 1) job.roots ∅
  job.resources.foldl (fun refs group => refs.set (.resource, group) (definition catalog (.resource, group))) refs

/-- The job refers to the entity, by a name of its own or through others. -/
def Refers (job : JobRecord V) (ref : Ref) : Prop :=
  (∃ root ∈ job.roots, Reaches (Leads (follows catalog)) root ref) ∨ ∃ group ∈ job.resources, ref = (.resource, group)

variable {catalog} {job : JobRecord V} {ref : Ref}

theorem mem_definedRefs (h : follows catalog ref ≠ []) : ref ∈ definedRefs catalog := by
  obtain ⟨kind, name⟩ := ref
  have hkey : ∀ {α : Type} {d : Dict String α} {f : α → Definition V} {x}, (d.get? name).map f = some x → name ∈ d.keys := by
    intro α d f x hx
    obtain ⟨a, ha, -⟩ := Option.map_eq_some_iff.mp hx
    exact Dict.mem_keys.mpr ⟨a, ha⟩
  unfold follows at h
  simp only [definedRefs, Finset.mem_union, List.mem_toFinset, List.mem_map]
  cases kind with
  | calendar =>
    cases hdef : definition catalog (.calendar, name) with
    | none =>
      rw [hdef] at h
      exact absurd rfl h
    | some d => exact .inl ⟨name, hkey hdef, rfl⟩
  | machine =>
    cases hdef : definition catalog (.machine, name) with
    | none =>
      rw [hdef] at h
      exact absurd rfl h
    | some d => exact .inr ⟨name, hkey hdef, rfl⟩
  | cycle =>
    unfold definition at h
    dsimp only at h
    cases hdef : catalog.cycles.get? name with
    | none =>
      rw [hdef] at h
      exact absurd rfl h
    | some d =>
      rw [hdef] at h
      exact absurd rfl h
  | resource =>
    unfold definition at h
    dsimp only at h
    cases hdef : catalog.resources.get? name with
    | none =>
      rw [hdef] at h
      exact absurd rfl h
    | some d =>
      rw [hdef] at h
      exact absurd rfl h

/-- Entries that are set to the definition of their key. -/
theorem get?_setEach {f : Ref → Option (Definition V)} : ∀ {groups : List String} {refs : Dict Ref (Option (Definition V))},
    (groups.foldl (fun refs group => refs.set (.resource, group) (f (.resource, group))) refs).get? ref =
      if ∃ group ∈ groups, ref = (.resource, group) then some (f ref) else refs.get? ref
  | [], refs => by simp
  | group :: groups, refs => by
    rw [List.foldl_cons, get?_setEach, Dict.get?_set]
    by_cases hlater : ∃ group ∈ groups, ref = (.resource, group)
    · rw [if_pos hlater, if_pos]
      obtain ⟨later, hmem, heq⟩ := hlater
      exact ⟨later, List.mem_cons_of_mem _ hmem, heq⟩
    · rw [if_neg hlater]
      by_cases hkey : ref = (.resource, group)
      · rw [if_pos hkey, if_pos ⟨group, List.mem_cons_self, hkey⟩, hkey]
      · rw [if_neg hkey, if_neg]
        rintro ⟨later, hmem, heq⟩
        rcases List.mem_cons.mp hmem with rfl | hmem
        · exact hkey heq
        · exact hlater ⟨later, hmem, heq⟩

/-- The chase ends with exactly the entities that the job refers to. -/
theorem references_get? {d : Option (Definition V)} :
    (references catalog job).get? ref = some d ↔ Refers catalog job ref ∧ d = definition catalog ref := by
  unfold references Refers
  rw [get?_setEach]
  by_cases hgroup : ∃ group ∈ job.resources, ref = (.resource, group)
  · rw [if_pos hgroup, Option.some.injEq]
    exact ⟨fun h => ⟨.inr hgroup, h.symm⟩, fun h => h.2.symm⟩
  · rw [if_neg hgroup, chaseAll_get? (fun _ => mem_definedRefs) (Nat.lt_succ_self _), or_iff_left hgroup]

end Dsl41.Reload
