import Dsl41.StateMachine.Legal

/-!
# Runs of an executor

`Reach` collects the executors a tier can reach with its calls and with rounds of `run`, whatever
its hook does and however the world moves between the calls. A round that raises empties the
worklist and leaves the instance in hand as it is, so its key counts as dead from then on; every
other instance lives on.

* `run_reach` — the rounds of `run` are rounds of `Reach`
* `reach_configuration` — in every reachable executor, a live instance whose initial entry has
  run is in a configuration
-/

namespace Dsl41.StateMachine

open Infra

variable {κ υ ω : Type} [DecidableEq κ]

/-- The key a round has in hand: that of the worklist's head, if any. -/
def Executor.inHand (e : Executor κ υ ω) : Option κ := e.worklist.head?.map (·.key)

/-- The executors a tier reaches, with the keys whose microstep raised. -/
inductive Reach [Inhabited υ] (charts : Statechart κ υ ω → Prop) (after : Hook κ υ ω) :
    List κ → Executor κ υ ω → Prop
  | idle (world : ω) : Reach charts after [] (Executor.idle world)
  | outside {dead : List κ} {e : Executor κ υ ω} (h : Reach charts after dead e) (world : ω) :
      Reach charts after dead { e with records := { e.records with world } }
  | start {dead : List κ} {e e' : Executor κ υ ω} {key : κ} {chart : Statechart κ υ ω} {data : υ}
      (h : Reach charts after dead e) (hi : e.worklist = []) (hc : charts chart)
      (hs : e.start key chart data = .ok e') : Reach charts after dead e'
  | restore {dead : List κ} {e e' : Executor κ υ ω} {key : κ} {chart : Statechart κ υ ω}
      {active : Finset Name} {data : υ} {generations : Name → Int}
      (h : Reach charts after dead e) (hi : e.worklist = []) (hc : charts chart)
      (hs : e.restore key chart active data generations = .ok e') : Reach charts after dead e'
  | post {dead : List κ} {e e' : Executor κ υ ω} {key : κ} {event : Event υ}
      (h : Reach charts after dead e) (hi : e.worklist = []) (hs : e.post key event = .ok e') :
      Reach charts after dead e'
  | forget {dead : List κ} {e e' : Executor κ υ ω} {key : κ}
      (h : Reach charts after dead e) (hi : e.worklist = []) (hs : e.forget key = .ok e') :
      Reach charts after dead e'
  | turn {dead : List κ} {e e' : Executor κ υ ω} {out : Option (Outcome κ υ)}
      (h : Reach charts after dead e) (hs : e.turn after = .ok (some (e', out))) :
      Reach charts after dead e'
  | raised {dead : List κ} {e e' : Executor κ υ ω} {error : StatechartError}
      (h : Reach charts after dead e) (hs : e.turn after = .error error)
      (hother : ∀ k, some k ≠ e.inHand → e'.records.instances k = e.records.instances k)
      (hp : e'.pool = e.pool) (hw : e'.worklist = []) :
      Reach charts after (e.inHand.toList ++ dead) e'

/-- The rounds of `run` are rounds of `Reach`. -/
theorem run_reach [Inhabited υ] {charts : Statechart κ υ ω → Prop} {after : Hook κ υ ω}
    {dead : List κ} : ∀ {n : Nat} {e e' : Executor κ υ ω} {outs : List (Outcome κ υ)},
    Reach charts after dead e → e.run after n = .ok (some (e', outs)) →
    Reach charts after dead e'
  | 0, e, e', outs, _, h => by cases h
  | n + 1, e, e', outs, hr, h => by
    unfold Executor.run at h
    obtain ⟨next, hturn, h⟩ := bind_eq_ok.mp h
    cases next with
    | none =>
      cases h
      exact hr
    | some p =>
      obtain ⟨e₁, out⟩ := p
      obtain ⟨rest, hrest, h⟩ := bind_eq_ok.mp h
      cases rest with
      | none => cases h
      | some q =>
        obtain ⟨e₂, outs'⟩ := q
        cases h
        exact run_reach (hr.turn hturn) hrest

/-! ## The rounds, taken apart -/

theorem extendLeft_reverse {α : Type} (d l : List α) : extendLeft d l.reverse = l ++ d := by
  have h : ∀ (l d : List α), extendLeft d l = l.reverse ++ d := by
    intro l
    induction l with
    | nil => intro d; rfl
    | cons a l ih =>
      intro d
      show extendLeft (a :: d) l = _
      rw [ih, List.reverse_cons, List.append_assoc]
      rfl
  rw [h, List.reverse_reverse]

/-- A released item is the head of a deferred queue; nothing else of any instance moves. -/
theorem releaseFrom_spec {r r' : Records κ υ ω} {item : Item κ υ} : ∀ {keys : List κ},
    releaseFrom r keys = .ok (some (item, r')) → item.kind = .event ∧
    ∃ inst tail, r.instances item.key = some inst ∧
      r'.instances = Function.update r.instances item.key (some { inst with deferred := tail })
  | [], h => by cases h
  | key :: keys, h => by
    unfold releaseFrom at h
    obtain ⟨inst, hi, h⟩ := bind_eq_ok.mp h
    split at h
    · cases h
    next head tail _ =>
      obtain ⟨waits, -, h⟩ := bind_eq_ok.mp h
      cases waits with
      | true => exact releaseFrom_spec h
      | false =>
        cases h
        exact ⟨rfl, inst, tail, get_eq_ok.mp hi, rfl⟩

/-- One round: a microstep of the worklist's head, or with an empty worklist a released or a
pooled root item. -/
inductive TurnRun (after : Hook κ υ ω) (e : Executor κ υ ω) :
    Executor κ υ ω → Option (Outcome κ υ) → Prop
  | step {item : Item κ υ} {rest : List (Item κ υ)} {r : Records κ υ ω} {out : Outcome κ υ}
      {q : Queued κ υ} (hw : e.worklist = item :: rest)
      (hm : microstep e.records item = .ok (r, out, q)) :
      TurnRun after e { e with
        records := { r with world := after out r }, worklist := q.order ++ rest } (some out)
  | released {item : Item κ υ} {r : Records κ υ ω} (hw : e.worklist = [])
      (hr : release e.records = .ok (some (item, r))) :
      TurnRun after e { e with records := r, worklist := [item] } none
  | pooled {item : Item κ υ} {pool : List (Item κ υ)} (hw : e.worklist = [])
      (hp : e.pool = item :: pool) : TurnRun after e { e with pool, worklist := [item] } none

theorem turn_cases {after : Hook κ υ ω} {e e' : Executor κ υ ω} {out : Option (Outcome κ υ)}
    (h : e.turn after = .ok (some (e', out))) : TurnRun after e e' out := by
  unfold Executor.turn at h
  split at h
  next item rest hw =>
    obtain ⟨⟨e₁, out₁⟩, hstep, h⟩ := bind_eq_ok.mp h
    cases h
    unfold Executor.step at hstep
    obtain ⟨⟨r, out₂, q⟩, hm, hstep⟩ := bind_eq_ok.mp hstep
    cases hstep
    rw [extendLeft_reverse]
    exact .step hw hm
  next hw =>
    obtain ⟨found, hr, h⟩ := bind_eq_ok.mp h
    cases found with
    | some p =>
      obtain ⟨item, r⟩ := p
      cases h
      exact .released hw hr
    | none =>
      simp only at h
      split at h
      next item pool hp =>
        cases h
        exact .pooled hw hp
      · cases h

/-! ## The invariant -/

/-- How many initial entries of `key` wait. -/
def Executor.waiting (e : Executor κ υ ω) (key : κ) : Nat :=
  (e.worklist ++ e.pool).countP fun i => i.kind = .start ∧ i.key = key

/-- An instance is in a configuration, or its initial entry waits and nothing is active. -/
def Ready (chart : Statechart κ υ ω) (active : Finset Name) (waiting : Nat) : Prop :=
  ∃ wf : WellFormed chart,
    waiting = 0 ∧ (index chart).Legal wf.sound active ∨ waiting = 1 ∧ active = ∅

/-- A key without instance has no waiting initial entry. -/
def KeyReady (inst? : Option (Instance κ υ ω)) (waiting : Nat) : Prop :=
  match inst? with
  | none => waiting = 0
  | some inst => Ready inst.chart inst.active waiting

/-- The invariant of a run: every live key is ready, and behind the worklist's head no initial
entry waits. -/
structure Executor.Inv (dead : List κ) (e : Executor κ υ ω) : Prop where
  ready : ∀ k ∉ dead, KeyReady (e.records.instances k) (e.waiting k)
  behind : ∀ i ∈ e.worklist.tail, i.kind ≠ .start

omit [DecidableEq κ] in
theorem select_empty {chart : Statechart κ υ ω} {ix : Index} {ctx : Context κ υ} {world : ω}
    {firing : List Row} {deferring : List Name}
    (h : select chart ix ∅ ctx world = .ok (firing, deferring)) : firing = [] ∧ deferring = [] := by
  have hl : ix.leaves ∅ = [] := by simp [Index.leaves]
  obtain ⟨h1, h2⟩ := select_sources h
  rw [hl] at h1 h2
  constructor
  · refine List.eq_nil_iff_forall_not_mem.mpr fun row hr => ?_
    obtain ⟨-, leaf, hm, -⟩ := h1 row hr
    cases hm
  · refine List.eq_nil_iff_forall_not_mem.mpr fun s hs => ?_
    obtain ⟨leaf, hm, -⟩ := h2 s hs
    cases hm

omit [DecidableEq κ] in
/-- Before its initial entry an instance runs no row. -/
theorem Chosen.rows_of_empty {inst : Instance κ υ ω} {item : Item κ υ} {world : ω}
    {rows : List Row} {kind : OutcomeKind} (h : Chosen inst item world rows kind)
    (he : inst.active = ∅) : rows = [] := by
  cases h with
  | continued _ => rfl
  | started _ => rfl
  | completed _ ho _ => simp [occurrenceGone, he] at ho
  | fired _ hd =>
    rcases decideItem_fired hd with hn | ⟨deferring, hsel⟩
    · exact hn
    · rw [he] at hsel
      exact (select_empty hsel).1
  | overflowed _ hd _ =>
    obtain ⟨hne, hsel⟩ := decideItem_deferred hd
    rw [he] at hsel
    exact absurd (select_empty hsel).2 hne

omit [DecidableEq κ] in
theorem Chosen.kind_started {inst : Instance κ υ ω} {item : Item κ υ} {world : ω}
    {rows : List Row} {kind : OutcomeKind} (h : Chosen inst item world rows kind) :
    kind = .started ↔ item.kind = .start := by
  cases h with
  | continued h => simp [h]
  | started h => simp [h]
  | completed h _ _ => simp [h]
  | fired h _ => simp [h]
  | overflowed h _ _ => simp [h]

/-- **A microstep keeps its instance ready.** `n` counts the initial entries that wait beside the
item in hand. -/
theorem microstep_ready {r r' : Records κ υ ω} {item : Item κ υ} {out : Outcome κ υ}
    {q : Queued κ υ} {n : Nat} (h : microstep r item = .ok (r', out, q))
    (hr : KeyReady (r.instances item.key) (n + if item.kind = .start then 1 else 0)) :
    KeyReady (r'.instances item.key) n := by
  obtain ⟨inst, hi, hrun⟩ := microstep_cases h
  rw [hi] at hr
  obtain ⟨wf, hready⟩ := hr
  cases hrun with
  | discarded hc =>
    have hk : item.kind ≠ .start := by rcases hc with ⟨hk, -⟩ | ⟨hk, -⟩ <;> simp [hk]
    rw [if_neg hk] at hready
    rw [hi]
    exact ⟨wf, hready⟩
  | deferred hk _ hw =>
    rw [if_neg (by simp [hk])] at hready
    rw [hw, write_self]
    exact ⟨wf, hready⟩
  | @ran rows kind _ hc hf =>
    obtain ⟨sh, left, entered, -, hfire, hm, -⟩ := fire_spec hi hf
    obtain ⟨inst', hi', hchart, -, -, -, hs⟩ := hm.own inst hi
    have hactive : inst'.active = sh.active := congrArg Shape.active hs
    rw [hi']
    show Ready inst'.chart inst'.active n
    rw [hchart, hactive]
    refine ⟨wf, ?_⟩
    by_cases hk : item.kind = .start
    · -- the initial entry runs on an empty set
      rw [if_pos hk] at hready
      rcases hready with ⟨h0, -⟩ | ⟨h1, he⟩
      · omega
      · refine Or.inl ⟨by omega, ?_⟩
        cases hfire with
        | rows hns _ => exact absurd (hc.kind_started.mpr hk) hns
        | started _ hrows =>
          rw [hc.rows_of_empty he] at hrows
          cases hrows
          have hset : {x | x ∈ ((inst.shape).enterAll (index inst.chart).initialEntry).active} =
              {x | x ∈ (index inst.chart).initialEntry} := by
            ext x
            simp [Instance.shape, he]
          unfold Index.Legal
          rw [hset]
          exact Index.initialEntry_legal wf.sound wf.initials
    · rw [if_neg hk] at hready
      have hns : kind ≠ .started := fun he => hk (hc.kind_started.mp he)
      cases hfire with
      | started he _ => exact absurd he hns
      | rows _ hrows =>
        rcases hready with ⟨h0, hA⟩ | ⟨h1, he⟩
        · exact Or.inl ⟨h0, hrows.legal wf hA (hc.fireable wf hA)⟩
        · rw [hc.rows_of_empty he] at hrows
          cases hrows
          exact Or.inr ⟨h1, he⟩

/-! ## The invariant is kept -/

section Kept

variable {dead : List κ} {e e' : Executor κ υ ω}

theorem Executor.Inv.turn {after : Hook κ υ ω} {out : Option (Outcome κ υ)} (hI : e.Inv dead)
    (h : e.turn after = .ok (some (e', out))) : e'.Inv dead := by
  cases turn_cases h with
  | @step item rest r out q hw hm =>
    obtain ⟨hother, hq⟩ := microstep_frame hm
    have hbehind : ∀ i ∈ rest, i.kind ≠ .start := by
      intro i hi
      exact hI.behind i (by rw [hw]; exact hi)
    refine ⟨fun k hk => ?_, fun i hi => ?_⟩
    · have hready := hI.ready k hk
      have hcount : e.waiting k = (rest ++ e.pool).countP (fun i => i.kind = .start ∧ i.key = k) +
          if item.kind = .start ∧ item.key = k then 1 else 0 := by
        unfold Executor.waiting
        rw [hw, List.cons_append, List.countP_cons]
        simp
      have hcount' : (q.order ++ rest ++ e.pool).countP (fun i => i.kind = .start ∧ i.key = k) =
          (rest ++ e.pool).countP fun i => i.kind = .start ∧ i.key = k := by
        have h0 : q.order.countP (fun i => i.kind = .start ∧ i.key = k) = 0 := by
          rw [List.countP_eq_zero]
          intro i hi
          simp [hq i hi]
        rw [List.append_assoc, List.countP_append, h0, Nat.zero_add]
      show KeyReady (r.instances k) ((q.order ++ rest ++ e.pool).countP _)
      rw [hcount']
      by_cases hkey : k = item.key
      · subst hkey
        refine microstep_ready hm ?_
        simpa [hcount] using hready
      · rw [hother k hkey]
        have hne : ¬ (item.kind = .start ∧ item.key = k) := fun h => hkey h.2.symm
        rwa [hcount, if_neg hne, Nat.add_zero] at hready
    · rcases List.mem_append.mp (List.mem_of_mem_tail hi) with hi | hi
      · exact hq i hi
      · exact hbehind i hi
  | @released item r hw hr =>
    obtain ⟨hkind, inst, tail, hi, hins⟩ := releaseFrom_spec hr
    refine ⟨fun k hk => ?_, by simp⟩
    have hready := hI.ready k hk
    have hcount : Executor.waiting { e with records := r, worklist := [item] } k = e.waiting k := by
      simp [Executor.waiting, hw, hkind]
    rw [hcount]
    show KeyReady (r.instances k) _
    rw [hins]
    by_cases hkey : k = item.key
    · rw [hkey, Function.update_self]
      rw [hkey, hi] at hready
      exact hready
    · rw [Function.update_of_ne hkey]
      exact hready
  | @pooled item pool hw hp =>
    refine ⟨fun k hk => ?_, by simp⟩
    have hcount : Executor.waiting { e with pool, worklist := [item] } k = e.waiting k := by
      simp [Executor.waiting, hw, hp]
    rw [hcount]
    exact hI.ready k hk

theorem Executor.Inv.add {key : κ} {inst : Instance κ υ ω} {n : Nat} (hI : e.Inv dead)
    (h : e.add key inst = .ok e') (hn : Ready inst.chart inst.active n) :
    (∀ k ∉ dead, KeyReady (e'.records.instances k) (if k = key then n else e.waiting k)) ∧
      e'.worklist = e.worklist ∧ e'.pool = e.pool ∧ (key ∉ dead → e.waiting key = 0) := by
  unfold Executor.add at h
  split at h
  · cases h
  next hnone =>
    cases h
    refine ⟨fun k hk => ?_, rfl, rfl, fun hk => ?_⟩
    · by_cases hkey : k = key
      · subst hkey
        rw [if_pos rfl]
        simp only [write_self]
        exact hn
      · rw [if_neg hkey]
        simp only [write_other hkey]
        exact hI.ready k hk
    · have hready := hI.ready key hk
      rwa [hnone] at hready

theorem Executor.Inv.start [Inhabited υ] {key : κ} {chart : Statechart κ υ ω} {data : υ}
    (hI : e.Inv dead) (hi : e.worklist = []) (hc : wellFormed chart = [])
    (h : e.start key chart data = .ok e') : e'.Inv dead := by
  unfold Executor.start at h
  obtain ⟨e₁, hadd, h⟩ := bind_eq_ok.mp h
  cases h
  obtain ⟨hready, hw, hp, hfree⟩ := hI.add hadd (n := 1)
    ⟨WellFormed.of_nil hc, Or.inr ⟨rfl, rfl⟩⟩
  refine ⟨fun k hk => ?_, by simp [hw, hi]⟩
  have hk' := hready k hk
  have hcount : Executor.waiting { e₁ with pool := e₁.pool ++ [
      { key, kind := .start, event := { name := INITIAL, payload := default } }] } k =
      e.waiting k + if key = k then 1 else 0 := by
    simp [Executor.waiting, hw, hp, hi, List.countP_append, List.countP_cons]
  rw [hcount]
  by_cases hkey : k = key
  · subst hkey
    rw [if_pos rfl] at hk' ⊢
    rw [hfree hk]
    exact hk'
  · rw [if_neg hkey] at hk'
    rw [if_neg (Ne.symm hkey)]
    exact hk'

theorem Executor.Inv.restore {key : κ} {chart : Statechart κ υ ω} {active : Finset Name} {data : υ}
    {generations : Name → Int} (hI : e.Inv dead) (hc : wellFormed chart = [])
    (h : e.restore key chart active data generations = .ok e') : e'.Inv dead := by
  unfold Executor.restore at h
  split at h
  · cases h
  next hnone =>
    have wf := WellFormed.of_nil hc
    have hA : (index chart).Legal wf.sound active :=
      (Index.configuration_iff wf.sound).mp (configurationProblem_none.mp hnone)
    obtain ⟨hready, hw, hp, hfree⟩ := hI.add h (n := 0) ⟨wf, Or.inl ⟨rfl, hA⟩⟩
    refine ⟨fun k hk => ?_, by rw [hw]; exact hI.behind⟩
    have hcount : e'.waiting k = e.waiting k := by simp [Executor.waiting, hw, hp]
    have hk' := hready k hk
    rw [hcount]
    by_cases hkey : k = key
    · subst hkey
      rw [hfree hk]
      rwa [if_pos rfl] at hk'
    · rwa [if_neg hkey] at hk'

theorem Executor.Inv.post {key : κ} {event : Event υ} (hI : e.Inv dead)
    (h : e.post key event = .ok e') : e'.Inv dead := by
  unfold Executor.post at h
  obtain ⟨inst, -, h⟩ := bind_eq_ok.mp h
  obtain ⟨_, -, h⟩ := bind_eq_ok.mp h
  cases h
  refine ⟨fun k hk => ?_, hI.behind⟩
  have hcount : Executor.waiting { e with pool := e.pool ++ [{ key, kind := .event, event }] } k =
      e.waiting k := by simp [Executor.waiting, ← List.append_assoc]
  rw [hcount]
  exact hI.ready k hk

theorem Executor.Inv.forget {key : κ} (hI : e.Inv dead) (hi : e.worklist = [])
    (h : e.forget key = .ok e') : e'.Inv dead := by
  unfold Executor.forget at h
  obtain ⟨inst, -, h⟩ := bind_eq_ok.mp h
  simp only at h
  split at h
  · cases h
  · split at h
    · cases h
    next hpool =>
      cases h
      refine ⟨fun k hk => ?_, hI.behind⟩
      show KeyReady (Function.update e.records.instances key none k) (e.waiting k)
      by_cases hkey : k = key
      · subst hkey
        rw [Function.update_self]
        show (e.worklist ++ e.pool).countP _ = 0
        rw [hi, List.nil_append, List.countP_eq_zero]
        intro i hm
        rw [not_or] at hpool
        have := hpool.2
        simp only [List.any_eq_true, decide_eq_true_eq, not_exists, not_and] at this
        simp [this i hm]
      · rw [Function.update_of_ne hkey]
        exact hI.ready k hk

theorem Executor.Inv.raised (hI : e.Inv dead)
    (hother : ∀ k, some k ≠ e.inHand → e'.records.instances k = e.records.instances k)
    (hp : e'.pool = e.pool) (hw : e'.worklist = []) : e'.Inv (e.inHand.toList ++ dead) := by
  refine ⟨fun k hk => ?_, by simp [hw]⟩
  rw [List.mem_append, not_or] at hk
  have hne : some k ≠ e.inHand := fun he => hk.1 (by simp [← he])
  rw [hother k hne]
  have hcount : e'.waiting k = e.waiting k := by
    have hlist : e.worklist.countP (fun i => i.kind = .start ∧ i.key = k) = 0 := by
      rw [List.countP_eq_zero]
      intro i hm
      cases hl : e.worklist with
      | nil => rw [hl] at hm; cases hm
      | cons item rest =>
        rw [hl] at hm
        rcases List.mem_cons.mp hm with rfl | hm
        · have : i.key ≠ k := fun he => hne (by simp [Executor.inHand, hl, he])
          simp [this]
        · simp [hI.behind i (by rw [hl]; exact hm)]
    unfold Executor.waiting
    rw [hw, hp, List.nil_append, List.countP_append, hlist, Nat.zero_add]
  rw [hcount]
  exact hI.ready k hk.2

end Kept

/-! ## Reachable executors -/

section Reachable

variable [Inhabited υ] {after : Hook κ υ ω} {dead : List κ} {e : Executor κ υ ω}

theorem reach_inv (h : Reach (fun chart => wellFormed chart = []) after dead e) : e.Inv dead := by
  induction h with
  | idle world => exact ⟨fun _ _ => rfl, by simp [Executor.idle]⟩
  | outside _ _ ih => exact ⟨ih.ready, ih.behind⟩
  | start _ hi hch hs ih => exact ih.start hi hch hs
  | restore _ _ hch hs ih => exact ih.restore hch hs
  | post _ _ hs ih => exact ih.post hs
  | forget _ hi hs ih => exact ih.forget hi hs
  | turn _ hs ih => exact ih.turn hs
  | raised _ _ hother hp hw ih => exact ih.raised hother hp hw

/-- The initial entry of `key` does not wait any more. -/
def Executor.Entered (e : Executor κ υ ω) (key : κ) : Prop :=
  ∀ i ∈ e.worklist ++ e.pool, i.kind = .start → i.key ≠ key

/--
**Every microstep leaves a configuration.**

The charts are well formed, the hook, the guards and the actions are arbitrary, and the rounds
that raised are those of other instances. Between the microsteps of a run, and after them, every
instance whose initial entry has run (or that was restored) is in a configuration.
-/
theorem reach_configuration (h : Reach (fun chart => wellFormed chart = []) after dead e)
    {key : κ} {inst : Instance κ υ ω} (hk : key ∉ dead)
    (hi : e.records.instances key = some inst) (he : e.Entered key) :
    (index inst.chart).Configuration inst.active := by
  have hready := (reach_inv h).ready key hk
  rw [hi] at hready
  obtain ⟨wf, ⟨-, hA⟩ | ⟨h1, -⟩⟩ := hready
  · exact (Index.configuration_iff wf.sound).mpr hA
  · have h0 : e.waiting key = 0 := by
      unfold Executor.waiting
      rw [List.countP_eq_zero]
      intro i hm hs
      simp only [decide_eq_true_eq] at hs
      exact he i hm hs.1 hs.2
    omega

end Reachable

/-! ## Two orthogonal regions that step together -/

def twoSteps (name first second : Name) : Region :=
  .mk name first [.mk first [] "" "" [] false [] "", .mk second [] "" "" [] false [] ""]

/-- One event fires a row in each region; the row of the shared ancestor waits behind them. -/
def lockstep : Statechart Nat Unit Unit where
  name := "lockstep"
  root := .mk "both" [twoSteps "left" "l_a" "l_b", twoSteps "right" "r_a" "r_b"] "" "" [] false
    [] ""
  rows := [
    { id := "lockstep.01", source := "l_a", event := "go", target := "l_b" },
    { id := "lockstep.02", source := "r_a", event := "go", target := "r_b" },
    { id := "lockstep.03", source := "both", event := "go", target := "both" }]
  clock := .logical

/-- After the initial entry and one `go`, both regions have stepped. -/
theorem reach_configuration_lockstep :
    (index lockstep).Configuration {"both", "l_b", "r_b"} := by
  have h₀ : Reach (fun chart : Statechart Nat Unit Unit => wellFormed chart = [])
      (fun _ r => r.world) [] (Executor.idle ()) := .idle ()
  have h₁ := h₀.start rfl (by decide +kernel : wellFormed lockstep = [])
    (rfl : (Executor.idle ()).start 0 lockstep () = .ok _)
  have h₂ := h₁.post rfl (rfl : Executor.post _ 0 { name := "go", payload := () } = .ok _)
  have h₃ := run_reach (n := 6) h₂ rfl
  obtain ⟨e, hr, inst, hi, he, hc, ha⟩ : ∃ e : Executor Nat Unit Unit,
      Reach (fun chart => wellFormed chart = []) (fun _ r => r.world) [] e ∧
      ∃ inst, e.records.instances 0 = some inst ∧ e.Entered 0 ∧ inst.chart = lockstep ∧
        inst.active = {"both", "l_b", "r_b"} := by
    refine ⟨_, h₃, _, rfl, ?_, rfl, by decide +kernel⟩
    intro i hi
    cases hi
  have h := reach_configuration hr List.not_mem_nil hi he
  rwa [hc, ha] at h

end Dsl41.StateMachine
