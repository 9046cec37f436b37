import Dsl41.Store.Instances

/-!
# What a name carries

A name keeps its run number and its revision through its life: in its row, and after a removal in
its tombstone. No verb of an input moves either back (`held_ahead`), and a start moves the number
on (`startRun_rises`).

* `Onward` — what every verb of an input, and its commit, leaves
-/

namespace Dsl41.Store

open Dsl41.Infra Dsl41.Infra.Effect
open RuntimeState

variable {τ ω : Type} [LinearOrder τ] {s s' s₀ : RuntimeState τ ω} {job : String}

/-- The record of a name: its row, or else its tombstone. -/
def RuntimeState.last (s : RuntimeState τ ω) (job : String) : JobRuntime τ :=
  (s.jobs.get? job).getD ((s.tombstones.get? job).getD {})

/-- No name's run number or revision has moved back. -/
def Ahead (s s' : RuntimeState τ ω) : Prop :=
  ∀ job, (s.last job).runNumber ≤ (s'.last job).runNumber ∧ (s.last job).stateRev ≤ (s'.last job).stateRev

/-- No name has both a row and a tombstone. -/
def Apart (s : RuntimeState τ ω) : Prop := ∀ job, s.jobs.get? job = none ∨ s.tombstones.get? job = none

theorem Ahead.refl (s : RuntimeState τ ω) : Ahead s s := fun _ => ⟨le_rfl, le_rfl⟩

theorem Ahead.trans {s'' : RuntimeState τ ω} (h : Ahead s s') (h' : Ahead s' s'') : Ahead s s'' :=
  fun job => ⟨(h job).1.trans (h' job).1, (h job).2.trans (h' job).2⟩

theorem last_of_row {row : JobRuntime τ} (h : s.jobs.get? job = some row) : s.last job = row := by
  rw [RuntimeState.last, h]
  rfl

theorem last_of_tombstone {row : JobRuntime τ} (h : s.jobs.get? job = none) (ht : s.tombstones.get? job = some row) :
    s.last job = row := by
  rw [RuntimeState.last, h, ht]
  rfl

/-- With no tombstone the record is the row as it reads. -/
theorem last_eq_row (h : s.tombstones.get? job = none) : s.last job = s.row job := by
  rw [RuntimeState.last, h]
  rfl

/-- A read never shows more than the record. -/
theorem row_stateRev_le : (s.row job).stateRev ≤ (s.last job).stateRev := by
  unfold RuntimeState.row RuntimeState.last
  cases s.jobs.get? job with
  | some row => exact le_rfl
  | none => exact Nat.zero_le _

theorem last_congr (hj : s'.jobs.get? job = s.jobs.get? job) (ht : s'.tombstones.get? job = s.tombstones.get? job) :
    s'.last job = s.last job := by rw [RuntimeState.last, RuntimeState.last, hj, ht]

/-! ## The verbs of an input -/

theorem Still.last (h : Still s s') (job : String) : s'.last job = s.last job := by
  rcases h.known job with hk | ⟨hn, ht, hk⟩
  · exact last_congr hk (by rw [h.tombstones])
  · rw [last_of_row hk, RuntimeState.last, hn, ht]
    rfl

theorem Still.apart (h : Still s s') (hs : Apart s) : Apart s' := by
  intro job
  rw [h.tombstones]
  rcases h.known job with hk | ⟨-, ht, -⟩
  · rw [hk]
    exact hs job
  · exact Or.inr ht

/-- A row's write under a name with no tombstone. -/
theorem last_setRow {x : String} {row : JobRuntime τ} :
    ({ s with jobs := s.jobs.set job row } : RuntimeState τ ω).last x = if x = job then row else s.last x := by
  by_cases hx : x = job
  · rw [if_pos hx, last_of_row (by rw [Dict.get?_set, if_pos hx])]
  · rw [if_neg hx]
    exact last_congr (by rw [Dict.get?_set, if_neg hx]) rfl

omit [LinearOrder τ] in
/-- No row write of a verb moves a run number or a revision back. -/
theorem Verb.Edits.ahead {v : Verb τ ω} {old new : JobRuntime τ} (h : v.Edits job old new) :
    old.runNumber ≤ new.runNumber ∧ old.stateRev ≤ new.stateRev := by
  have hflag : ∀ target : FlagState, (target.write old).runNumber = old.runNumber := by
    intro target
    cases target <;> rfl
  cases v with
  | transition | clearExitCode | recordResolution | recordIcedOut | voidResolution | seedJob
  | releaseReservations | dequeueWaiter =>
    obtain ⟨-, rfl⟩ := h
    exact ⟨le_rfl, le_rfl⟩
  | moveFlag j target =>
    obtain ⟨-, rfl⟩ := h
    rw [hflag, FlagState.write_stateRev]
    exact ⟨le_rfl, le_rfl⟩
  | reserve | takeOverHeld | releaseHeld =>
    obtain ⟨-, -, rfl⟩ := h
    exact ⟨le_rfl, le_rfl⟩
  | enqueueWaiter =>
    obtain ⟨-, -, rank, rfl⟩ := h
    exact ⟨le_rfl, le_rfl⟩
  | startRun j cause box isBox =>
    rcases h with ⟨-, rfl | ⟨period, rfl⟩ | ⟨-, rfl⟩⟩ | ⟨-, rfl⟩
    · rw [hflag, FlagState.write_stateRev]
      exact ⟨le_rfl, le_rfl⟩
    · exact ⟨Int.le_add_one le_rfl, le_rfl⟩
    · exact ⟨le_rfl, le_rfl⟩
    · exact ⟨le_rfl, le_rfl⟩
  | _ => exact h.elim

theorem Ahead.still (hs : Ahead s₀ s) (h : Still s s') : Ahead s₀ s' := by
  intro x
  rw [h.last]
  exact hs x

theorem Ahead.setRow {new : JobRuntime τ} (hs : Ahead s₀ s) (ht : s.tombstones.get? job = none)
    (hle : (s.row job).runNumber ≤ new.runNumber ∧ (s.row job).stateRev ≤ new.stateRev) :
    Ahead s₀ { s with jobs := s.jobs.set job new } := by
  intro x
  rw [last_setRow]
  split
  · next hx =>
    rw [← last_eq_row ht] at hle
    rw [hx]
    exact ⟨(hs job).1.trans hle.1, (hs job).2.trans hle.2⟩
  · exact hs x

/-- **No verb of an input moves a name's run number or revision back.** -/
theorem held_ahead (s₀ : RuntimeState τ ω) : Held (Ahead s₀) :=
  .of_rows (fun _ _ h hs => hs.still h) (fun _ _ _ _ hs ht he => hs.setRow ht he.ahead)
    (fun _ _ hs => hs) fun _ _ hs ht => hs.setRow ht ⟨le_rfl, Nat.le_succ _⟩

theorem Apart.setRow {new : JobRuntime τ} (hs : Apart s) (ht : s.tombstones.get? job = none) :
    Apart { s with jobs := s.jobs.set job new } := by
  intro x
  dsimp only
  rw [Dict.get?_set]
  split
  · next hx => exact Or.inr (hx ▸ ht)
  · exact hs x

/-- **Rows and tombstones stay apart in an input.** -/
theorem held_apart : Held fun s : RuntimeState τ ω => Apart s :=
  .of_rows (fun _ _ h hs => h.apart hs) (fun _ _ _ _ hs ht _ => hs.setRow ht) (fun _ _ hs => hs)
    fun _ _ hs ht => hs.setRow ht

/-- The tombstones stay. -/
theorem held_tombstones (tombstones : Dict String (JobRuntime τ)) :
    Held fun s : RuntimeState τ ω => s.tombstones = tombstones :=
  .of_rows (fun _ _ h hs => h.tombstones.trans hs) (fun _ _ _ _ hs _ _ => hs) (fun _ _ hs => hs)
    fun _ _ hs _ => hs

/-! ## A start -/

/-- A write that returns writes the row as the function leaves it. -/
theorem replace_ok {f : JobRuntime τ → JobRuntime τ} (h : (replace job f).result s = .ok ()) :
    ∃ s₁, Still s s₁ ∧ s₁.tombstones.get? job = none ∧
      (replace job f).after s = { s₁ with jobs := s₁.jobs.set job (f (s₁.row job)) } := by
  obtain ⟨_, -, h, hafter⟩ := bind_result_ok h
  obtain ⟨row, hrow, -, hafter'⟩ := bind_result_ok h
  have hr : Still s ((runtime job).after ((touch (.job job)).after s)) := (still_touch _).trans still_runtime
  refine ⟨_, hr, ?_, ?_⟩
  · rw [hr.tombstones, ← (still_touch (s := s) (.job job)).tombstones]
    exact runtime_tombstone hrow
  · rw [replace, hafter, hafter', after_modify, runtime_result hrow, still_runtime.row]

/-- What a name's record is after a write that returns. -/
theorem last_replace {f : JobRuntime τ → JobRuntime τ} (h : (replace job f).result s = .ok ()) :
    ((replace job f).after s).last job = f (s.last job) ∧ ((replace job f).after s).tombstones = s.tombstones ∧
      s.tombstones.get? job = none := by
  obtain ⟨s₁, h₁, ht, hafter⟩ := replace_ok h
  rw [hafter, last_setRow, if_pos rfl, ← last_eq_row ht, h₁.last]
  exact ⟨rfl, h₁.tombstones, h₁.tombstones ▸ ht⟩

theorem keeps_joinBox_ahead {box : String} : Keeps (Ahead s₀) (joinBox job box : RuntimeM τ ω _) :=
  keeps_runtime_bind (fun _ _ h hs => hs.still h) fun _ hs _ =>
    after_replace_of hs (fun _ _ h hs => hs.still h) fun _ h₁ ht hrow => h₁.setRow ht (hrow ▸ ⟨le_rfl, le_rfl⟩)

theorem keeps_resetBox_ahead : Keeps (Ahead s₀) (resetBox job : RuntimeM τ ω _) := fun _ hs =>
  after_replace_of hs (fun _ _ h hs => hs.still h) fun _ h₁ ht hrow => h₁.setRow ht (hrow ▸ ⟨le_rfl, le_rfl⟩)

/-- A number that rose does not fall behind a computation that moves none back. -/
theorem number_lt_after {m : RuntimeM τ ω Unit} (hm : ∀ s₂, Keeps (Ahead s₂) m)
    (h : (s.last job).runNumber < (s'.last job).runNumber) :
    (s.last job).runNumber < ((m.after s').last job).runNumber := h.trans_le (hm s' s' (.refl s') job).1

/-- **A start that returns moves its name's run number on.** -/
theorem startRun_rises {cause : String} {box : Option String} {isBox : Bool}
    (h : (startRun job cause box isBox).result s = .ok ()) :
    (s.last job).runNumber < (((startRun job cause box isBox).after s).last job).runNumber := by
  obtain ⟨_, -, h, hafter⟩ := bind_result_ok h
  rw [startRun, hafter]
  have hflag : Ahead s ((moveFlag job .armOff).after s) := (held_ahead s).verb (.moveFlag job .armOff) rfl s (.refl s)
  obtain ⟨row, hrow, h, hafter⟩ := bind_result_ok h
  rw [hafter]
  have hread : row = ((moveFlag job .armOff).after s).last job := by
    rw [runtime_result hrow, last_eq_row (runtime_tombstone hrow)]
  obtain ⟨s₁, hs₁, h, hafter⟩ := bind_result_ok h
  cases hs₁
  rw [hafter]
  obtain ⟨_, hwrite, h, hafter⟩ := bind_result_ok h
  rw [hafter]
  have hnumber := congrArg (·.runNumber) (last_replace hwrite).1
  have hreset : ∀ s₂ : RuntimeState τ ω,
      Keeps (Ahead s₂) (if isBox then resetBox job else pure () : RuntimeM τ ω Unit) := by
    intro s₂
    split
    · exact keeps_resetBox_ahead
    · exact keeps_pure _
  refine number_lt_after (fun s₂ => ?_) ?_
  · cases box with
    | none => exact hreset s₂
    | some box => exact keeps_joinBox_ahead.bind fun _ => hreset s₂
  · rw [hnumber, hread]
    exact (hflag job).1.trans_lt (Int.lt_succ _)

/-- A start that returns is of a name with no tombstone. -/
theorem startRun_untombed {cause : String} {box : Option String} {isBox : Bool}
    (h : (startRun job cause box isBox).result s = .ok ()) : s.tombstones.get? job = none := by
  obtain ⟨_, hflag, -, -⟩ := bind_result_ok h
  exact (last_replace hflag).2.2

/-! ## An input -/

/-- What no call of an input undoes: the numbers, the tombstones, and that no name has a row and a
tombstone. -/
structure Onward (s s' : RuntimeState τ ω) : Prop where
  ahead : Ahead s s'
  tombstones : s'.tombstones = s.tombstones
  apart : Apart s → Apart s'
  gives : s'.jobInstance = s.jobInstance

theorem Onward.refl (s : RuntimeState τ ω) : Onward s s := ⟨.refl s, rfl, id, rfl⟩

theorem Onward.trans {s'' : RuntimeState τ ω} (h : Onward s s') (h' : Onward s' s'') : Onward s s'' :=
  ⟨h.ahead.trans h'.ahead, h'.tombstones.trans h.tombstones, fun hs => h'.apart (h.apart hs), h'.gives.trans h.gives⟩

theorem keeps_onward {α : Type} {m : RuntimeM τ ω α} (ahead : Keeps (Ahead s) m)
    (tombstones : Keeps (fun s' => s'.tombstones = s.tombstones) m) (apart : Keeps Apart m)
    (gives : Keeps (Gives s.jobInstance) m) : Keeps (Onward s) m :=
  fun s' h => ⟨ahead s' h.ahead, tombstones s' h.tombstones, fun hs => apart s' (h.apart hs), gives s' h.gives⟩

theorem Verb.keeps_onward {v : Verb τ ω} (hv : v.ofInput) : Keeps (Onward s) v.call :=
  Store.keeps_onward ((held_ahead s).verb v hv) ((held_tombstones _).verb v hv) (held_apart.verb v hv)
    (Verb.keeps_gives hv)

theorem keeps_release_onward {status : JobStatus} {keepsHeld : Option (String → Bool)} :
    Keeps (Onward s) (releaseReservations job status keepsHeld : RuntimeM τ ω _) :=
  keeps_onward ((held_ahead s).settle _ _ _) ((held_tombstones _).settle _ _ _) (held_apart.settle _ _ _)
    ((parts_gives _).release _ _ _)

theorem keeps_commit_onward : Keeps (Onward s) (commitInput : RuntimeM τ ω _) :=
  keeps_onward (held_ahead s).commit (held_tombstones _).commit held_apart.commit (parts_gives _).commit

end Dsl41.Store
