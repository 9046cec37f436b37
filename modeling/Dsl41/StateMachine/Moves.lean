import Dsl41.Infra.Result
import Dsl41.StateMachine.Executor

/-!
# What a microstep moves

An action changes no configuration, an exit removes one state and an entry adds one with a new
serial. Every function of a microstep is described by the `Shape` it leaves and by the states it
left and entered.

* `runRow_spec` — one row: the exits of its plan, then the entries of one target
* `fire_spec` — a firing set, as a sequence of such rows
* `microstep_frame` — a microstep moves only its own instance and queues no initial entry
-/

namespace Dsl41.StateMachine

open Infra

variable {κ υ ω : Type}

/-! ## Shapes -/

/-- The part of an instance that exits and entries move. -/
structure Shape where
  active : Finset Name
  entered : Name → Nat
  entries : Nat

def Instance.shape (inst : Instance κ υ ω) : Shape := ⟨inst.active, inst.entered, inst.entries⟩

namespace Shape

def exit (sh : Shape) (s : Name) : Shape := { sh with active := sh.active.erase s }

def enter (sh : Shape) (s : Name) : Shape where
  active := insert s sh.active
  entered := Function.update sh.entered s (sh.entries + 1)
  entries := sh.entries + 1

def exitAll (sh : Shape) (l : List Name) : Shape := l.foldl exit sh

def enterAll (sh : Shape) (l : List Name) : Shape := l.foldl enter sh

@[simp] theorem exitAll_nil (sh : Shape) : sh.exitAll [] = sh := rfl

@[simp] theorem enterAll_nil (sh : Shape) : sh.enterAll [] = sh := rfl

@[simp] theorem exitAll_cons (sh : Shape) (s : Name) (l : List Name) :
    sh.exitAll (s :: l) = (sh.exit s).exitAll l := rfl

@[simp] theorem enterAll_cons (sh : Shape) (s : Name) (l : List Name) :
    sh.enterAll (s :: l) = (sh.enter s).enterAll l := rfl

@[simp] theorem mem_exitAll {x : Name} : ∀ {l : List Name} {sh : Shape},
    x ∈ (sh.exitAll l).active ↔ x ∈ sh.active ∧ x ∉ l
  | [], sh => by simp
  | s :: l, sh => by
    rw [exitAll_cons, mem_exitAll]
    simp only [exit, Finset.mem_erase, List.mem_cons]
    tauto

@[simp] theorem mem_enterAll {x : Name} : ∀ {l : List Name} {sh : Shape},
    x ∈ (sh.enterAll l).active ↔ x ∈ sh.active ∨ x ∈ l
  | [], sh => by simp
  | s :: l, sh => by
    rw [enterAll_cons, mem_enterAll]
    simp only [enter, Finset.mem_insert, List.mem_cons]
    tauto

end Shape

/-! ## Moves of the records -/

/-- `r'` is `r` with the shape of `key`'s instance moved by `f`. Of the instances only that one
moves, and of it neither the chart nor the deferred queue. -/
structure Moves (key : κ) (f : Shape → Shape) (r r' : Records κ υ ω) : Prop where
  other : ∀ k ≠ key, r'.instances k = r.instances k
  own : ∀ inst, r.instances key = some inst → ∃ inst', r'.instances key = some inst' ∧
    inst'.chart = inst.chart ∧ inst'.data = inst.data ∧ inst'.deferred = inst.deferred ∧
    inst'.added = inst.added ∧ inst'.shape = f inst.shape
  deferring : r'.deferring = r.deferring
  added : r'.added = r.added

namespace Moves

variable {key : κ} {f g : Shape → Shape} {r r' r'' : Records κ υ ω}

theorem refl : Moves key id r r :=
  ⟨fun _ _ => rfl, fun inst h => ⟨inst, h, rfl, rfl, rfl, rfl, rfl⟩, rfl, rfl⟩

theorem trans (h : Moves key f r r') (h' : Moves key g r' r'') : Moves key (g ∘ f) r r'' where
  other := fun k hk => (h'.other k hk).trans (h.other k hk)
  own := by
    intro inst hi
    obtain ⟨i₁, h1, hc, hd, hf, ha, hs⟩ := h.own inst hi
    obtain ⟨i₂, h2, hc', hd', hf', ha', hs'⟩ := h'.own i₁ h1
    exact ⟨i₂, h2, hc'.trans hc, hd'.trans hd, hf'.trans hf, ha'.trans ha,
      hs'.trans (congrArg g hs)⟩
  deferring := h'.deferring.trans h.deferring
  added := h'.added.trans h.added

theorem world (w : ω) : Moves key id r { r with world := w } :=
  ⟨fun _ _ => rfl, fun inst h => ⟨inst, h, rfl, rfl, rfl, rfl, rfl⟩, rfl, rfl⟩

end Moves

section

variable [DecidableEq κ]

omit [DecidableEq κ] in
theorem get_eq_ok {r : Records κ υ ω} {key : κ} {inst : Instance κ υ ω} :
    r.get key = .ok inst ↔ r.instances key = some inst := by
  unfold Records.get
  cases h : r.instances key <;> simp

@[simp] theorem write_self {r : Records κ υ ω} {key : κ} {inst : Instance κ υ ω} :
    (r.write key inst).instances key = some inst := by simp [Records.write]

theorem write_other {r : Records κ υ ω} {key k : κ} {inst : Instance κ υ ω} (h : k ≠ key) :
    (r.write key inst).instances k = r.instances k := by simp [Records.write, h]

/-- A write that keeps everything but the shape and the generations. -/
theorem Moves.write {r : Records κ υ ω} {key : κ} {inst inst' : Instance κ υ ω}
    {f : Shape → Shape} (h : r.instances key = some inst) (hc : inst'.chart = inst.chart)
    (hd : inst'.data = inst.data) (hf : inst'.deferred = inst.deferred)
    (ha : inst'.added = inst.added) (hs : inst'.shape = f inst.shape) :
    Moves key f r (r.write key inst') where
  other := fun _ hk => write_other hk
  own := by
    intro i hi
    rw [h] at hi
    cases hi
    exact ⟨inst', write_self, hc, hd, hf, ha, hs⟩
  deferring := rfl
  added := rfl

end

/-! ## Progress of a microstep -/

/-- Reported items are events and continuations are continuations. -/
def Microstep.Plain (step : Microstep κ υ) : Prop :=
  (∀ i ∈ step.reported, i.kind = .event) ∧ ∀ i ∈ step.continuations, i.kind = .continuation

/-- `step'` is `step` after it left and entered further states. -/
structure Progress (step step' : Microstep κ υ) (left entered : List Name) : Prop where
  item : step'.item = step.item
  left : step'.left = step.left ++ left
  entered : step'.entered = step.entered ++ entered
  plain : step.Plain → step'.Plain

namespace Progress

variable {step step' step'' : Microstep κ υ} {l l' e e' : List Name}

theorem refl : Progress step step [] [] := ⟨rfl, by simp, by simp, id⟩

theorem trans (h : Progress step step' l e) (h' : Progress step' step'' l' e') :
    Progress step step'' (l ++ l') (e ++ e') where
  item := h'.item.trans h.item
  left := by rw [h'.left, h.left, List.append_assoc]
  entered := by rw [h'.entered, h.entered, List.append_assoc]
  plain := h'.plain ∘ h.plain

end Progress

/-! ## Actions -/

variable [DecidableEq κ]

omit [DecidableEq κ] in
theorem reportSends_spec {r : Records κ υ ω} : ∀ {sends : List (κ × Event υ)}
    {step step' : Microstep κ υ}, reportSends r sends step = .ok step' →
    Progress step step' [] []
  | [], step, step', h => by
    cases h
    exact Progress.refl
  | (key, event) :: sends, step, step', h => by
    unfold reportSends at h
    obtain ⟨inst, -, h⟩ := bind_eq_ok.mp h
    obtain ⟨_, -, h⟩ := bind_eq_ok.mp h
    refine Progress.trans (l := []) (e := []) ?_ (reportSends_spec h)
    refine ⟨rfl, by simp, by simp, fun hp => ⟨?_, hp.2⟩⟩
    intro i hi
    rcases List.mem_append.mp hi with hi | hi
    · exact hp.1 i hi
    · rw [List.mem_singleton.mp hi]

theorem rearmAll_moves {chart : Statechart κ υ ω} {key : κ} : ∀ {timers : List Name}
    {r r' : Records κ υ ω}, rearmAll chart key timers r = .ok r' → Moves key id r r'
  | [], r, r', h => by
    cases h
    exact Moves.refl
  | timer :: timers, r, r', h => by
    unfold rearmAll at h
    by_cases ht : timer ∈ (index chart).generational
    · simp only [ht, not_true_eq_false, if_false] at h
      obtain ⟨inst, hi, h⟩ := bind_eq_ok.mp h
      refine Moves.trans (f := id) (g := id) ?_ (rearmAll_moves h)
      exact Moves.write (get_eq_ok.mp hi) rfl rfl rfl rfl rfl
    · simp only [ht, not_false_eq_true, if_true] at h
      cases h

/-- **An action moves no configuration.** -/
theorem call_spec {r r' : Records κ υ ω} {step step' : Microstep κ υ} {name : Name}
    (h : call r step name = .ok (r', step')) :
    Moves step.item.key id r r' ∧ Progress step step' [] [] := by
  unfold call at h
  split at h
  · cases h
    exact ⟨Moves.refl, Progress.refl⟩
  · obtain ⟨inst, -, h⟩ := bind_eq_ok.mp h
    split at h
    · cases h
    next action _ =>
      simp only at h
      split at h
      · cases h
        exact ⟨Moves.world _, Progress.refl⟩
      next fx _ =>
        obtain ⟨sent, hsent, h⟩ := bind_eq_ok.mp h
        obtain ⟨r₂, hr, h⟩ := bind_eq_ok.mp h
        cases h
        refine ⟨(Moves.world _).trans (rearmAll_moves hr), ?_⟩
        have hs := reportSends_spec hsent
        refine ⟨hs.item, hs.left, hs.entered, fun hp => ⟨(hs.plain hp).1, ?_⟩⟩
        intro i hi
        simp only at hi
        split at hi
        · exact (hs.plain hp).2 i hi
        · rcases List.mem_append.mp hi with hi | hi
          · exact (hs.plain hp).2 i hi
          · rw [List.mem_singleton.mp hi]

/-! ## Exits and entries -/

theorem exitStates_spec {ix : Index} : ∀ {l : List Name} {r r' : Records κ υ ω}
    {step step' : Microstep κ υ}, exitStates ix l r step = .ok (r', step') →
    Moves step.item.key (·.exitAll l) r r' ∧ Progress step step' l []
  | [], r, r', step, step', h => by
    cases h
    exact ⟨Moves.refl, Progress.refl⟩
  | s :: l, r, r', step, step', h => by
    unfold exitStates at h
    obtain ⟨⟨r₁, step₁⟩, hcall, h⟩ := bind_eq_ok.mp h
    obtain ⟨inst, hi, h⟩ := bind_eq_ok.mp h
    obtain ⟨hm, hp⟩ := call_spec hcall
    obtain ⟨hm', hp'⟩ := exitStates_spec h
    have hw : Moves step.item.key (·.exit s) r₁
        (r₁.write step₁.item.key { inst with active := inst.active.erase s }) := by
      rw [hp.item] at hi ⊢
      exact Moves.write (get_eq_ok.mp hi) rfl rfl rfl rfl rfl
    have hs : Progress step₁ { step₁ with left := step₁.left ++ [s] } [s] [] :=
      ⟨rfl, rfl, by simp, id⟩
    refine ⟨?_, by simpa using hp.trans (hs.trans hp')⟩
    simp only [hp.item] at hw hm'
    exact hm.trans (hw.trans hm')

theorem enterStates_spec {ix : Index} : ∀ {l : List Name} {r r' : Records κ υ ω}
    {step step' : Microstep κ υ}, enterStates ix l r step = .ok (r', step') →
    Moves step.item.key (·.enterAll l) r r' ∧ Progress step step' [] l
  | [], r, r', step, step', h => by
    cases h
    exact ⟨Moves.refl, Progress.refl⟩
  | s :: l, r, r', step, step', h => by
    unfold enterStates at h
    obtain ⟨inst, hi, h⟩ := bind_eq_ok.mp h
    obtain ⟨⟨r₁, step₁⟩, hcall, h⟩ := bind_eq_ok.mp h
    obtain ⟨hm, hp⟩ := call_spec hcall
    obtain ⟨hm', hp'⟩ := enterStates_spec h
    have hw : Moves step.item.key (·.enter s) r (r.write step.item.key
        { inst with
          active := insert s inst.active
          entries := inst.entries + 1
          entered := Function.update inst.entered s (inst.entries + 1) }) :=
      Moves.write (get_eq_ok.mp hi) rfl rfl rfl rfl rfl
    have hs : Progress step₁ { step₁ with entered := step₁.entered ++ [s] } [] [s] :=
      ⟨rfl, by simp, rfl, id⟩
    refine ⟨?_, by simpa using hp.trans (hs.trans hp')⟩
    simp only [hp.item] at hm'
    exact hw.trans (hm.trans hm')

/-! ## Rows -/

omit [DecidableEq κ] in
theorem firstBranch_mem {chart : Statechart κ υ ω} {ctx : Context κ υ} {world : ω} :
    ∀ {branches : List Branch} {branch : Branch},
      firstBranch chart ctx world branches = .ok (some branch) → branch ∈ branches
  | [], branch, h => by cases h
  | b :: branches, branch, h => by
    unfold firstBranch at h
    obtain ⟨held, -, h⟩ := bind_eq_ok.mp h
    split at h
    · cases h
      exact List.mem_cons_self
    · exact List.mem_cons_of_mem _ (firstBranch_mem h)

theorem choose_spec {r r' : Records κ υ ω} {step step' : Microstep κ υ} {choice : Choice}
    {target : Name} (h : choose r step choice = .ok (r', step', target)) :
    Moves step.item.key id r r' ∧ Progress step step' [] [] ∧
      target ∈ choice.branches.map (·.target) := by
  unfold choose at h
  obtain ⟨inst, -, h⟩ := bind_eq_ok.mp h
  obtain ⟨found, hfound, h⟩ := bind_eq_ok.mp h
  cases found with
  | none => cases h
  | some branch =>
    obtain ⟨⟨r₁, step₁⟩, hcall, h⟩ := bind_eq_ok.mp h
    cases h
    obtain ⟨hm, hp⟩ := call_spec hcall
    refine ⟨hm, ⟨hp.item, hp.left, hp.entered, hp.plain⟩, ?_⟩
    exact List.mem_map_of_mem (firstBranch_mem hfound)

/-- What a row leaves and enters in a configuration. -/
inductive RowRun (ix : Index) (active : Finset Name) (row : Row) : List Name → List Name → Prop
  | inside (h : row.kind ≠ .external) : RowRun ix active row [] []
  | across (h : row.kind = .external) {exits : List Name} {target : Name}
      (hx : (ix.plan row).exits ix active = .ok exits) (ht : target ∈ ix.targets row) :
      RowRun ix active row exits ((ix.plan row).entryOf ix target)

/-- **One row: the exits of its plan, then the entries of one target.** -/
theorem runRow_spec {r r' : Records κ υ ω} {step step' : Microstep κ υ} {row : Row}
    {inst : Instance κ υ ω} (hi : r.instances step.item.key = some inst)
    (h : runRow r step row = .ok (r', step')) :
    ∃ exits enters, RowRun (index inst.chart) inst.active row exits enters ∧
      Moves step.item.key (fun sh => (sh.exitAll exits).enterAll enters) r r' ∧
      Progress step step' exits enters := by
  unfold runRow at h
  rw [get_eq_ok.mpr hi] at h
  obtain ⟨_, hget, h⟩ := bind_eq_ok.mp h
  cases hget
  simp only at h
  by_cases hk : row.kind = .external
  · simp only [hk, ne_eq, not_true_eq_false, if_false] at h
    obtain ⟨exits, hexits, h⟩ := bind_eq_ok.mp h
    obtain ⟨⟨r₁, step₁⟩, hexit, h⟩ := bind_eq_ok.mp h
    obtain ⟨⟨r₂, step₂⟩, hcall, h⟩ := bind_eq_ok.mp h
    obtain ⟨hm₁, hp₁⟩ := exitStates_spec hexit
    obtain ⟨hm₂, hp₂⟩ := call_spec hcall
    have hp₁₂ := hp₁.trans hp₂
    rw [hp₁.item] at hm₂
    simp only at h
    split at h
    next hc =>
      obtain ⟨hm₃, hp₃⟩ := enterStates_spec h
      rw [hp₁₂.item] at hm₃
      have ht : row.target ∈ (index inst.chart).targets row := by simp [Index.targets, hc]
      exact ⟨exits, _, .across hk hexits ht, hm₁.trans (hm₂.trans hm₃),
        by simpa using hp₁₂.trans hp₃⟩
    next choice hc =>
      obtain ⟨⟨r₃, step₃, target⟩, hchoose, h⟩ := bind_eq_ok.mp h
      obtain ⟨hm₃, hp₃, ht⟩ := choose_spec hchoose
      obtain ⟨hm₄, hp₄⟩ := enterStates_spec h
      rw [hp₃.item, hp₁₂.item] at hm₄
      rw [hp₁₂.item] at hm₃
      have ht' : target ∈ (index inst.chart).targets row := by simpa [Index.targets, hc] using ht
      exact ⟨exits, _, .across hk hexits ht', hm₁.trans (hm₂.trans (hm₃.trans hm₄)),
        by simpa using hp₁₂.trans (hp₃.trans hp₄)⟩
  · simp only [hk, ne_eq, not_false_eq_true, if_true] at h
    obtain ⟨hm, hp⟩ := call_spec h
    exact ⟨[], [], .inside hk, hm, hp⟩

/-- A firing set as a sequence of rows, each on the configuration the earlier ones left. -/
inductive RowsRun (ix : Index) : Shape → List Row → Shape → List Name → List Name → Prop
  | nil {sh : Shape} : RowsRun ix sh [] sh [] []
  | cons {sh sh' : Shape} {row : Row} {rows : List Row} {exits enters left entered : List Name}
      (h : RowRun ix sh.active row exits enters)
      (hs : RowsRun ix ((sh.exitAll exits).enterAll enters) rows sh' left entered) :
      RowsRun ix sh (row :: rows) sh' (exits ++ left) (enters ++ entered)

theorem runRows_spec : ∀ {rows : List Row} {r r' : Records κ υ ω} {step step' : Microstep κ υ}
    {inst : Instance κ υ ω}, r.instances step.item.key = some inst →
    runRows rows r step = .ok (r', step') →
    ∃ sh left entered, RowsRun (index inst.chart) inst.shape rows sh left entered ∧
      Moves step.item.key (fun _ => sh) r r' ∧ Progress step step' left entered
  | [], r, r', step, step', inst, hi, h => by
    cases h
    refine ⟨inst.shape, [], [], .nil, ?_, .refl⟩
    refine ⟨fun _ _ => rfl, fun i hi' => ?_, rfl, rfl⟩
    rw [hi] at hi'
    cases hi'
    exact ⟨inst, hi, rfl, rfl, rfl, rfl, rfl⟩
  | row :: rows, r, r', step, step', inst, hi, h => by
    unfold runRows at h
    obtain ⟨⟨r₁, step₁⟩, hrow, h⟩ := bind_eq_ok.mp h
    obtain ⟨exits, enters, hrun, hm, hp⟩ := runRow_spec hi hrow
    obtain ⟨inst₁, hi₁, hc, -, -, -, hs⟩ := hm.own inst hi
    rw [← hp.item] at hi₁
    obtain ⟨sh, left, entered, hrest, hm', hp'⟩ := runRows_spec hi₁ h
    rw [hc, hs] at hrest
    rw [hp.item] at hm'
    exact ⟨sh, _, _, .cons hrun hrest, hm.trans hm', hp.trans hp'⟩

/-! ## Microsteps -/

/-- What a microstep did to the shape: an initial entry, a firing set or nothing. -/
inductive FireRun (ix : Index) (sh : Shape) (rows : List Row) (kind : OutcomeKind) :
    Shape → List Name → List Name → Prop
  | started (h : kind = .started) {sh' : Shape} {left entered : List Name}
      (hs : RowsRun ix (sh.enterAll ix.initialEntry) rows sh' left entered) :
      FireRun ix sh rows kind sh' left (ix.initialEntry ++ entered)
  | rows (h : kind ≠ .started) {sh' : Shape} {left entered : List Name}
      (hs : RowsRun ix sh rows sh' left entered) : FireRun ix sh rows kind sh' left entered

/-- No item is an initial entry: only `start` queues those. -/
def Queued.NoStart (q : Queued κ υ) : Prop := ∀ i ∈ q.order, i.kind ≠ .start

/-- **A firing set moves its own instance by the runs of its rows.** -/
theorem fire_spec {r r' : Records κ υ ω} {item : Item κ υ} {rows : List Row}
    {kind : OutcomeKind} {out : Outcome κ υ} {q : Queued κ υ} {inst : Instance κ υ ω}
    (hi : r.instances item.key = some inst) (h : fire r item rows kind = .ok (r', out, q)) :
    ∃ sh left entered inst', FireRun (index inst.chart) inst.shape rows kind sh left entered ∧
      Moves item.key (fun _ => sh) r r' ∧ r'.instances item.key = some inst' ∧
      q.NoStart ∧ q.left = left ∧ out.key = item.key ∧ out.kind = kind ∧
      out.rows = rows.map (·.id) ∧
      q.completions = (completedStates (index inst.chart) inst'.active entered []).map fun s =>
        { key := item.key, kind := .completion,
          event := { name := COMPLETION, payload := item.event.payload },
          ancestry := item.ancestry ++ [(item.key, item.event.name)], name := s,
          serial := inst'.entered s } := by
  unfold fire at h
  rw [get_eq_ok.mpr hi] at h
  obtain ⟨_, hget, h⟩ := bind_eq_ok.mp h
  cases hget
  simp only at h
  obtain ⟨⟨r₁, step₁⟩, h₁, h⟩ := bind_eq_ok.mp h
  obtain ⟨⟨r₂, step₂⟩, h₂, h⟩ := bind_eq_ok.mp h
  obtain ⟨⟨r₃, step₃⟩, h₃, h⟩ := bind_eq_ok.mp h
  obtain ⟨inst', hi', h⟩ := bind_eq_ok.mp h
  cases h
  -- the continuation's action moves nothing
  have hcall : Moves item.key id r r₁ ∧ Progress { item } step₁ [] [] := by
    split at h₁
    · exact call_spec h₁
    · cases h₁
      exact ⟨Moves.refl, Progress.refl⟩
  obtain ⟨hm₁, hp₁⟩ := hcall
  obtain ⟨inst₁, hi₁, hc₁, -, -, -, hs₁⟩ := hm₁.own inst hi
  have hentry : ∃ entered, Moves item.key (·.enterAll entered) r₁ r₂ ∧
      Progress step₁ step₂ [] entered ∧
      (kind = .started ∧ entered = (index inst.chart).initialEntry ∨
        kind ≠ .started ∧ entered = []) := by
    split at h₂
    next hk =>
      obtain ⟨hm, hp⟩ := enterStates_spec h₂
      rw [hp₁.item] at hm
      exact ⟨_, hm, hp, Or.inl ⟨hk, rfl⟩⟩
    next hk =>
      cases h₂
      exact ⟨[], Moves.refl, Progress.refl, Or.inr ⟨hk, rfl⟩⟩
  obtain ⟨first, hm₂, hp₂, hfirst⟩ := hentry
  have hp₁₂ := hp₁.trans hp₂
  obtain ⟨inst₂, hi₂, hc₂, -, -, -, hs₂⟩ := hm₂.own inst₁ hi₁
  have hi₂' : r₂.instances step₂.item.key = some inst₂ := by rw [hp₁₂.item]; exact hi₂
  obtain ⟨sh, left, entered, hrun, hm₃, hp₃⟩ := runRows_spec hi₂' h₃
  rw [hp₁₂.item] at hm₃
  have hp := hp₁₂.trans hp₃
  rw [hc₂, hc₁, hs₂, hs₁] at hrun
  refine ⟨sh, left, first ++ entered, inst', ?_, hm₁.trans (hm₂.trans hm₃), get_eq_ok.mp hi', ?_,
    ?_, rfl, rfl, rfl, ?_⟩
  · rcases hfirst with ⟨hk, rfl⟩ | ⟨hk, rfl⟩
    · exact .started hk hrun
    · exact .rows hk hrun
  · have hplain := hp.plain ⟨by simp, by simp⟩
    intro i hi
    simp only [Queued.order, List.mem_append, completions, List.mem_map] at hi
    rcases hi with (hi | hi) | ⟨s, -, rfl⟩
    · rw [hplain.1 i hi]; decide
    · rw [hplain.2 i hi]; decide
    · simp
  · simpa using hp.left
  · have he : step₃.entered = first ++ entered := by simpa using hp.entered
    simp only [completions, Microstep.chained, hp.item, he]

/-- The firing sets a microstep runs, by the kind of its item. -/
inductive Chosen (inst : Instance κ υ ω) (item : Item κ υ) (world : ω) :
    List Row → OutcomeKind → Prop
  | continued (h : item.kind = .continuation) : Chosen inst item world [] .continued
  | started (h : item.kind = .start) : Chosen inst item world [] .started
  | completed {row : Row} (h : item.kind = .completion) (ho : occurrenceGone inst item = false)
      (hr : enabled inst.chart (index inst.chart) item.name COMPLETION (context inst item) world =
        .ok (some row)) : Chosen inst item world [row] .fired
  | fired {rows : List Row} (h : item.kind = .event)
      (hd : decideItem inst item (context inst item) world = .ok (.fired rows)) :
      Chosen inst item world rows .fired
  | overflowed {states : List Name} {row : Row} (h : item.kind = .event)
      (hd : decideItem inst item (context inst item) world = .ok (.deferred states))
      (hr : enabled inst.chart (index inst.chart) (states.headD "") OVERFLOWED
        (context inst item) world = .ok (some row)) : Chosen inst item world [row] .overflowed

/-- The ways a microstep ends. -/
inductive StepRun (r : Records κ υ ω) (item : Item κ υ) (inst : Instance κ υ ω) :
    Ran κ υ ω → Prop
  | discarded
      (h : item.kind = .completion ∧ occurrenceGone inst item = true ∨ item.kind = .event ∧
        decideItem inst item (context inst item) r.world = .ok .discarded) :
      StepRun r item inst (r, outcome item .discarded, {})
  | deferred {states : List Name} (h : item.kind = .event)
      (hd : decideItem inst item (context inst item) r.world = .ok (.deferred states))
      {r' : Records κ υ ω} (hr : r'.instances = (r.write item.key
        { inst with deferred := inst.deferred ++ [⟨item.event, states⟩] }).instances) :
      StepRun r item inst (r', outcome item .deferred, {})
  | ran {rows : List Row} {kind : OutcomeKind} {ran : Ran κ υ ω}
      (hc : Chosen inst item r.world rows kind) (hf : fire r item rows kind = .ok ran) :
      StepRun r item inst ran

/-- **What one microstep can do.** -/
theorem microstep_cases {r : Records κ υ ω} {item : Item κ υ} {ran : Ran κ υ ω}
    (h : microstep r item = .ok ran) :
    ∃ inst, r.instances item.key = some inst ∧ StepRun r item inst ran := by
  unfold microstep at h
  obtain ⟨inst, hi, h⟩ := bind_eq_ok.mp h
  refine ⟨inst, get_eq_ok.mp hi, ?_⟩
  simp only at h
  split at h
  next hk => exact .ran (.continued hk) h
  next hk => exact .ran (.started hk) h
  next hk =>
    split at h
    next ho =>
      cases h
      exact .discarded (Or.inl ⟨hk, ho⟩)
    next ho =>
      obtain ⟨row, hrow, h⟩ := bind_eq_ok.mp h
      cases row with
      | none => cases h
      | some row => exact .ran (.completed hk (by simpa using ho) hrow) h
  next hk =>
    obtain ⟨decision, hd, h⟩ := bind_eq_ok.mp h
    cases decision with
    | discarded =>
      cases h
      exact .discarded (Or.inr ⟨hk, hd⟩)
    | fired rows => exact .ran (.fired hk hd) h
    | deferred states =>
      simp only [deferItem] at h
      split at h
      · cases h
        exact .deferred hk hd rfl
      · split at h
        · cases h
        · obtain ⟨row, hrow, h⟩ := bind_eq_ok.mp h
          cases row with
          | none => cases h
          | some row => exact .ran (.overflowed hk hd hrow) h

/-- **A microstep moves only its own instance and queues no initial entry.** -/
theorem microstep_frame {r r' : Records κ υ ω} {item : Item κ υ} {out : Outcome κ υ}
    {q : Queued κ υ} (h : microstep r item = .ok (r', out, q)) :
    (∀ k ≠ item.key, r'.instances k = r.instances k) ∧ q.NoStart := by
  obtain ⟨inst, hi, hrun⟩ := microstep_cases h
  cases hrun with
  | discarded _ => exact ⟨fun _ _ => rfl, fun i hi => by simp [Queued.order] at hi⟩
  | deferred _ _ hr =>
    refine ⟨fun k hk => ?_, fun i hi => by simp [Queued.order] at hi⟩
    rw [hr]
    exact write_other hk
  | ran _ hf =>
    obtain ⟨_, _, _, _, -, hm, -, hq, -⟩ := fire_spec hi hf
    exact ⟨hm.other, hq⟩

end Dsl41.StateMachine
