import Dsl41.StateMachine.Chains
import Dsl41.StateMachine.Completions

/-!
# Deferred events

Over a sequence of posts and runs in which nothing raises, the outcomes tell an instance's whole queue:
the events that were deferred are those that were released, the one in hand and those still queued, in
this order. A released event is handled in the next microstep, which does not defer it again.
-/

namespace Dsl41.StateMachine

open Infra

variable {κ υ ω : Type} [DecidableEq κ]

/-! ## Quiet runs -/

/-- The executors a tier reaches with its calls and with rounds of `run` while nothing raises, with all
outcomes so far. -/
inductive Quiet [Inhabited υ] (after : Hook κ υ ω) : Executor κ υ ω → List (Outcome κ υ) → Prop
  | idle (world : ω) : Quiet after (Executor.idle world) []
  | outside {e : Executor κ υ ω} {outs : List (Outcome κ υ)} (h : Quiet after e outs) (hi : e.worklist = [])
      (world : ω) : Quiet after { e with records := { e.records with world } } outs
  | start {e e' : Executor κ υ ω} {outs : List (Outcome κ υ)} {key : κ} {chart : Statechart κ υ ω} {data : υ}
      (h : Quiet after e outs) (hi : e.worklist = []) (hs : e.start key chart data = .ok e') : Quiet after e' outs
  | restore {e e' : Executor κ υ ω} {outs : List (Outcome κ υ)} {key : κ} {chart : Statechart κ υ ω}
      {active : Finset Name} {data : υ} {generations : Name → Int} (h : Quiet after e outs) (hi : e.worklist = [])
      (hs : e.restore key chart active data generations = .ok e') : Quiet after e' outs
  | post {e e' : Executor κ υ ω} {outs : List (Outcome κ υ)} {key : κ} {event : Event υ} (h : Quiet after e outs)
      (hi : e.worklist = []) (hs : e.post key event = .ok e') : Quiet after e' outs
  | forget {e e' : Executor κ υ ω} {outs : List (Outcome κ υ)} {key : κ} (h : Quiet after e outs)
      (hi : e.worklist = []) (hs : e.forget key = .ok e') : Quiet after e' outs
  | turn {e e' : Executor κ υ ω} {outs : List (Outcome κ υ)} {out : Option (Outcome κ υ)} (h : Quiet after e outs)
      (hs : e.turn after = .ok (some (e', out))) : Quiet after e' (outs ++ out.toList)

/-- A run that returns is a quiet one, and its last round finds nothing to do. -/
theorem run_quiet [Inhabited υ] {after : Hook κ υ ω} : ∀ {n : Nat} {e e' : Executor κ υ ω}
    {outs outs' : List (Outcome κ υ)}, Quiet after e outs → e.run after n = .ok (some (e', outs')) →
    Quiet after e' (outs ++ outs') ∧ e'.turn after = .ok none
  | 0, e, e', outs, outs', _, h => by cases h
  | n + 1, e, e', outs, outs', hq, h => by
    unfold Executor.run at h
    obtain ⟨next, hturn, h⟩ := bind_eq_ok.mp h
    cases next with
    | none =>
      cases h
      rw [List.append_nil]
      exact ⟨hq, hturn⟩
    | some p =>
      obtain ⟨e₁, out⟩ := p
      obtain ⟨rest, hrest, h⟩ := bind_eq_ok.mp h
      cases rest with
      | none => cases h
      | some q =>
        obtain ⟨e₂, outs₂⟩ := q
        cases h
        have hall := run_quiet (hq.turn hturn) hrest
        rwa [List.append_assoc] at hall

/-! ## What the outcomes tell -/

/-- The events of an instance that were deferred, in the order of their deferral. -/
def deferredOf (key : κ) (outs : List (Outcome κ υ)) : List (Event υ) :=
  (outs.filter fun out => out.key = key ∧ out.kind = .deferred).map (·.event)

/-- The released events of an instance that were handled, in order. -/
def releasedOf (key : κ) (outs : List (Outcome κ υ)) : List (Event υ) :=
  (outs.filter fun out => out.key = key ∧ out.released = true).map (·.event)

/-- The released events of an instance that wait for their microstep. -/
def inHandOf (key : κ) (worklist : List (Item κ υ)) : List (Event υ) :=
  (worklist.filter fun item => item.key = key ∧ item.released = true).map (·.event)

/-- An instance's bound and its deferred queue. -/
def Records.queue (r : Records κ υ ω) (key : κ) : Option (Nat × List (Deferred υ)) :=
  (r.instances key).map fun inst => (inst.chart.deferBound, inst.deferred)

/-- The events an instance has queued, head first. -/
def Records.queueOf (r : Records κ υ ω) (key : κ) : List (Event υ) :=
  ((r.queue key).map fun q => q.2.map (·.event)).getD []

/-! ## Microsteps -/

section Microstep

variable {r r' : Records κ υ ω} {item : Item κ υ} {inst : Instance κ υ ω} {out : Outcome κ υ} {q : Queued κ υ}

omit [DecidableEq κ] in
theorem queue_some (hi : r.instances item.key = some inst) :
    r.queue item.key = some (inst.chart.deferBound, inst.deferred) := by rw [Records.queue, hi, Option.map_some]

theorem queue_write {key : κ} : (r.write key inst).queue =
    Function.update r.queue key (some (inst.chart.deferBound, inst.deferred)) := by
  funext k
  by_cases hk : k = key
  · rw [hk, Function.update_self, Records.queue, write_self, Option.map_some]
  · rw [Function.update_of_ne hk, Records.queue, write_other hk, Records.queue]

omit [DecidableEq κ] in
theorem Moves.queue {f : Shape → Shape} {key : κ} (h : Moves key f r r') (hi : r.instances key = some inst) :
    r'.queue = r.queue := by
  funext k
  by_cases hk : k = key
  · obtain ⟨inst', hi', hchart, -, hdeferred, -, -⟩ := h.own inst hi
    rw [hk, Records.queue, Records.queue, hi, hi', Option.map_some, Option.map_some, hchart, hdeferred]
  · rw [Records.queue, Records.queue, h.other k hk]

theorem fire_outcome {rows : List Row} {kind : OutcomeKind} (h : fire r item rows kind = .ok (r', out, q)) :
    out.key = item.key ∧ out.event = item.event ∧ out.released = item.released ∧ out.kind = kind := by
  unfold fire at h
  obtain ⟨_, -, h⟩ := bind_eq_ok.mp h
  obtain ⟨_, -, h⟩ := bind_eq_ok.mp h
  obtain ⟨_, -, h⟩ := bind_eq_ok.mp h
  obtain ⟨_, -, h⟩ := bind_eq_ok.mp h
  obtain ⟨_, -, h⟩ := bind_eq_ok.mp h
  cases h
  exact ⟨rfl, rfl, rfl, rfl⟩

/-- What a microstep does to the queues: nothing, or its event joins its instance's. -/
inductive QueueRun (r : Records κ υ ω) (item : Item κ υ) (r' : Records κ υ ω) (kind : OutcomeKind) : Prop
  | kept (hkind : kind ≠ .deferred) (hqueue : r'.queue = r.queue) (hdeferring : r'.deferring = r.deferring)
  | joined (hkind : kind = .deferred) {inst : Instance κ υ ω} {states : List Name}
      (hi : r.instances item.key = some inst)
      (hdecide : decideItem inst item (context inst item) r.world = .ok (.deferred states))
      (hroom : inst.deferred.length < inst.chart.deferBound)
      (hqueue : r'.queue = Function.update r.queue item.key
        (some (inst.chart.deferBound, inst.deferred ++ [⟨item.event, states⟩])))
      (hdeferring : ∀ k, k ∈ r'.deferring ↔ k = item.key ∨ k ∈ r.deferring)

theorem fire_queue {rows : List Row} {kind : OutcomeKind} (hi : r.instances item.key = some inst)
    (hkind : kind ≠ .deferred) (h : fire r item rows kind = .ok (r', out, q)) :
    (out.key = item.key ∧ out.event = item.event ∧ out.released = item.released) ∧
      QueueRun r item r' out.kind := by
  obtain ⟨_, _, _, _, -, hmoves, -⟩ := fire_spec hi h
  obtain ⟨hkey, hevent, hreleased, hout⟩ := fire_outcome h
  exact ⟨⟨hkey, hevent, hreleased⟩, .kept (hout ▸ hkind) (hmoves.queue hi) hmoves.deferring⟩

theorem deferItem_queue {states : List Name} (hi : r.instances item.key = some inst)
    (hdecide : decideItem inst item (context inst item) r.world = .ok (.deferred states))
    (h : deferItem r inst item states (context inst item) = .ok (r', out, q)) :
    (out.key = item.key ∧ out.event = item.event ∧ out.released = item.released) ∧
      QueueRun r item r' out.kind := by
  simp only [deferItem] at h
  split at h
  next hroom =>
    cases h
    refine ⟨⟨rfl, rfl, rfl⟩, .joined rfl hi hdecide hroom queue_write fun k => ?_⟩
    show k ∈ (if item.key ∈ r.deferring then r.deferring else r.deferring ++ [item.key]) ↔ _
    split
    · next hmem => exact ⟨.inr, fun hk => hk.elim (fun heq => heq ▸ hmem) id⟩
    · rw [List.mem_append, List.mem_singleton, or_comm]
  next =>
    split at h
    · cases h
    · obtain ⟨row, -, h⟩ := bind_eq_ok.mp h
      cases row with
      | none => cases h
      | some row => exact fire_queue hi (by decide) h

theorem microstep_queue (h : microstep r item = .ok (r', out, q)) :
    (out.key = item.key ∧ out.event = item.event ∧ out.released = item.released) ∧
      QueueRun r item r' out.kind := by
  unfold microstep at h
  obtain ⟨inst, hi, h⟩ := bind_eq_ok.mp h
  have hi := get_eq_ok.mp hi
  simp only at h
  split at h
  · exact fire_queue hi (by decide) h
  · exact fire_queue hi (by decide) h
  · split at h
    · cases h
      exact ⟨⟨rfl, rfl, rfl⟩, .kept (nomatch ·) rfl rfl⟩
    · obtain ⟨row, -, h⟩ := bind_eq_ok.mp h
      cases row with
      | none => cases h
      | some row => exact fire_queue hi (by decide) h
  · obtain ⟨decision, hdecide, h⟩ := bind_eq_ok.mp h
    cases decision with
    | discarded =>
      cases h
      exact ⟨⟨rfl, rfl, rfl⟩, .kept (nomatch ·) rfl rfl⟩
    | fired rows => exact fire_queue hi (by decide) h
    | deferred states => exact deferItem_queue hi hdecide h

/-- An event that the configuration does not defer is fired or, when it is stale, discarded. -/
theorem microstep_handled (h : microstep r item = .ok (r', out, q)) (hk : item.kind = .event)
    (hi : r.instances item.key = some inst)
    (hnot : ∀ states, decideItem inst item (context inst item) r.world ≠ .ok (.deferred states)) :
    out.kind = .fired ∨ out.kind = .discarded := by
  unfold microstep at h
  obtain ⟨inst', hi', h⟩ := bind_eq_ok.mp h
  have hi' := get_eq_ok.mp hi'
  rw [hi] at hi'
  cases hi'
  simp only [hk] at h
  obtain ⟨decision, hdecide, h⟩ := bind_eq_ok.mp h
  cases decision with
  | discarded =>
    cases h
    exact .inr rfl
  | fired rows => exact .inl (fire_outcome h).2.2.2
  | deferred states => exact absurd hdecide (hnot states)

omit [DecidableEq κ] in
/-- A head waits just where its event would be deferred again. -/
theorem headWaits_iff {waits : Bool} (h : headWaits r inst item = .ok waits) :
    waits = true ↔ ∃ states, decideItem inst item (context inst item) r.world = .ok (.deferred states) := by
  unfold headWaits at h
  unfold decideItem
  split at h
  next hstale =>
    cases h
    rw [if_pos hstale]
    exact ⟨nofun, fun ⟨states, hstates⟩ => by cases hstates⟩
  next hstale =>
    obtain ⟨⟨firing, deferring⟩, hselect, h⟩ := bind_eq_ok.mp h
    cases h
    rw [if_neg hstale]
    show decide (firing = [] ∧ deferring ≠ []) = true ↔ ∃ states,
      (select inst.chart (index inst.chart) inst.active (context inst item) r.world >>= _) = _
    rw [hselect, decide_eq_true_iff]
    show _ ↔ ∃ states, (if firing ≠ [] then Except.ok (Decision.fired firing)
      else if deferring ≠ [] then Except.ok (.deferred deferring) else _) = _
    constructor
    · rintro ⟨hfiring, hdeferring⟩
      rw [if_neg (not_not.mpr hfiring), if_pos hdeferring]
      exact ⟨deferring, rfl⟩
    · rintro ⟨states, hstates⟩
      by_cases hfiring : firing = []
      · refine ⟨hfiring, fun hnone => ?_⟩
        rw [if_neg (not_not.mpr hfiring), if_neg (not_not.mpr hnone)] at hstates
        split at hstates
        · cases hstates
        · cases hstates
      · rw [if_pos hfiring] at hstates
        cases hstates

end Microstep

/-! ## The ledger -/

section Ledger

variable {after : Hook κ υ ω} {e e' : Executor κ υ ω} {outs : List (Outcome κ υ)} {out : Option (Outcome κ υ)}

/-- Each queue is within its bound, and the ledger of the outcomes is what was deferred. A released item is
alone in the worklist and its configuration does not defer it. -/
structure Ledger (e : Executor κ υ ω) (outs : List (Outcome κ υ)) : Prop where
  bounded : ∀ key bound queue, e.records.queue key = some (bound, queue) → queue.length ≤ bound
  listed : ∀ key, key ∈ e.records.deferring ↔ e.records.queueOf key ≠ []
  balance : ∀ key, deferredOf key outs =
    releasedOf key outs ++ inHandOf key e.worklist ++ e.records.queueOf key
  alone : ∀ item ∈ e.worklist, item.released = true → e.worklist = [item] ∧ item.kind = .event ∧
    ∃ inst, e.records.instances item.key = some inst ∧ ∀ states,
      decideItem inst item (context inst item) e.records.world ≠ .ok (.deferred states)
  pooled : ∀ item ∈ e.pool, item.released = false
  once : ∀ out ∈ outs, out.released = true → out.kind = .fired ∨ out.kind = .discarded

theorem inHandOf_none {key : κ} {worklist : List (Item κ υ)} (h : ∀ item ∈ worklist, item.released = false) :
    inHandOf key worklist = [] := by
  have hnone : worklist.filter (fun item => decide (item.key = key ∧ item.released = true)) = [] :=
    List.filter_eq_nil_iff.mpr fun item hitem => by simp [h item hitem]
  rw [inHandOf, hnone, List.map_nil]

theorem inHandOf_cons {key : κ} {item : Item κ υ} {rest : List (Item κ υ)} :
    inHandOf key (item :: rest) =
      (if item.key = key ∧ item.released = true then [item.event] else []) ++ inHandOf key rest := by
  unfold inHandOf
  rw [List.filter_cons]
  split
  · next hone => rw [if_pos (of_decide_eq_true hone)]; rfl
  · next hnone => rw [if_neg fun h => hnone (decide_eq_true h)]; rfl

theorem deferredOf_concat {key : κ} {out : Outcome κ υ} : deferredOf key (outs ++ [out]) =
    deferredOf key outs ++ if out.key = key ∧ out.kind = .deferred then [out.event] else [] := by
  unfold deferredOf
  rw [List.filter_append, List.map_append, List.filter_singleton]
  split
  · next hone => rw [decide_eq_true hone]; rfl
  · next hnone => rw [decide_eq_false hnone]; rfl

theorem releasedOf_concat {key : κ} {out : Outcome κ υ} : releasedOf key (outs ++ [out]) =
    releasedOf key outs ++ if out.key = key ∧ out.released = true then [out.event] else [] := by
  unfold releasedOf
  rw [List.filter_append, List.map_append, List.filter_singleton]
  split
  · next hone => rw [decide_eq_true hone]; rfl
  · next hnone => rw [decide_eq_false hnone]; rfl

omit [DecidableEq κ] in
theorem queueOf_congr {r r' : Records κ υ ω} {key : κ} (h : r'.queue key = r.queue key) :
    r'.queueOf key = r.queueOf key := by rw [Records.queueOf, h, Records.queueOf]

/-- A microstep that defers nothing moves its item, if that was a released one, to the handled ones. -/
theorem Ledger.kept {item : Item κ υ} {rest worklist : List (Item κ υ)} {r : Records κ υ ω} {out : Outcome κ υ}
    (h : Ledger e outs) (hw : e.worklist = item :: rest) (hrest : ∀ i ∈ rest, i.released = false)
    (hnew : ∀ i ∈ worklist, i.released = false) (hkey : out.key = item.key) (hevent : out.event = item.event)
    (hreleased : out.released = item.released) (hkind : out.kind ≠ .deferred)
    (honce : item.released = true → out.kind = .fired ∨ out.kind = .discarded) (hqueue : r.queue = e.records.queue) (hdeferring : r.deferring = e.records.deferring) :
    Ledger { e with records := r, worklist } (outs ++ [out]) where
  bounded key bound queue hkept := h.bounded key bound queue (hqueue ▸ hkept)
  listed key := by
    show key ∈ r.deferring ↔ r.queueOf key ≠ []
    rw [hdeferring, queueOf_congr (congrFun hqueue key)]
    exact h.listed key
  balance key := by
    show _ = _ ++ inHandOf key worklist ++ r.queueOf key
    rw [deferredOf_concat, if_neg fun h => hkind h.2, List.append_nil, releasedOf_concat, hkey, hevent, hreleased,
      inHandOf_none hnew, List.append_nil, queueOf_congr (congrFun hqueue key), h.balance key, hw, inHandOf_cons,
      inHandOf_none hrest, List.append_nil]
  alone i hi hrel := by
    rw [hnew i hi] at hrel
    cases hrel
  pooled := h.pooled
  once o ho hrel := by
    rcases List.mem_append.mp ho with ho | ho
    · exact h.once o ho hrel
    · rw [List.mem_singleton.mp ho] at hrel ⊢
      exact honce (hreleased ▸ hrel)

/-- A microstep that defers its event puts it behind its instance's queue; the item was no released one. -/
theorem Ledger.joined {item : Item κ υ} {rest worklist : List (Item κ υ)} {r : Records κ υ ω} {out : Outcome κ υ}
    {inst : Instance κ υ ω} {states : List Name} (h : Ledger e outs) (hw : e.worklist = item :: rest)
    (hrest : ∀ i ∈ rest, i.released = false) (hnew : ∀ i ∈ worklist, i.released = false) (hkey : out.key = item.key)
    (hevent : out.event = item.event) (hreleased : out.released = item.released) (hkind : out.kind = .deferred)
    (hi : e.records.instances item.key = some inst) (hroot : item.released = false)
    (hroom : inst.deferred.length < inst.chart.deferBound)
    (hqueue : r.queue = Function.update e.records.queue item.key
      (some (inst.chart.deferBound, inst.deferred ++ [⟨item.event, states⟩])))
    (hdeferring : ∀ k, k ∈ r.deferring ↔ k = item.key ∨ k ∈ e.records.deferring) :
    Ledger { e with records := r, worklist } (outs ++ [out]) := by
  have hown : r.queueOf item.key = e.records.queueOf item.key ++ [item.event] := by
    rw [Records.queueOf, Records.queueOf, hqueue, Function.update_self, queue_some hi]
    simp
  have hother : ∀ key ≠ item.key, r.queueOf key = e.records.queueOf key := fun key hne =>
    queueOf_congr (by rw [hqueue, Function.update_of_ne hne])
  refine ⟨fun key bound queue hkept => ?_, fun key => ?_, fun key => ?_, fun i hi hrel => ?_, h.pooled, ?_⟩
  · dsimp only at hkept
    rw [hqueue] at hkept
    by_cases hk : key = item.key
    · rw [hk, Function.update_self] at hkept
      cases hkept
      rw [List.length_append, List.length_singleton]
      exact hroom
    · rw [Function.update_of_ne hk] at hkept
      exact h.bounded key bound queue hkept
  · show key ∈ r.deferring ↔ r.queueOf key ≠ []
    rw [hdeferring]
    by_cases hk : key = item.key
    · rw [hk, hown]
      exact ⟨fun _ => List.append_ne_nil_of_right_ne_nil _ (List.cons_ne_nil _ _), fun _ => .inl rfl⟩
    · rw [hother key hk, ← h.listed key]
      exact or_iff_right hk
  · show _ = _ ++ inHandOf key worklist ++ r.queueOf key
    have hbefore := h.balance key
    rw [hw, inHandOf_cons, hroot, inHandOf_none hrest] at hbefore
    rw [deferredOf_concat, releasedOf_concat, hkey, hevent, hreleased, hroot, inHandOf_none hnew, hbefore]
    by_cases hk : item.key = key
    · rw [← hk, hown]
      simp [hkind]
    · rw [hother key (Ne.symm hk)]
      simp [hk]
  · rw [hnew i hi] at hrel
    cases hrel
  · intro o ho hrel
    rcases List.mem_append.mp ho with ho | ho
    · exact h.once o ho hrel
    · rw [List.mem_singleton.mp ho, hreleased, hroot] at hrel
      cases hrel

theorem Ledger.step {item : Item κ υ} {rest : List (Item κ υ)} {r : Records κ υ ω} {out : Outcome κ υ}
    {q : Queued κ υ} {world : ω} (h : Ledger e outs) (hw : e.worklist = item :: rest)
    (hm : microstep e.records item = .ok (r, out, q)) :
    Ledger { e with records := { r with world }, worklist := q.order ++ rest } (outs ++ [out]) := by
  obtain ⟨⟨hkey, hevent, hreleased⟩, hrun⟩ := microstep_queue hm
  have hmem : item ∈ e.worklist := hw ▸ List.mem_cons_self
  have hrest : ∀ i ∈ rest, i.released = false := by
    intro i hi
    rw [← Bool.not_eq_true]
    intro hrel
    obtain ⟨hone, -⟩ := h.alone i (hw ▸ List.mem_cons_of_mem _ hi) hrel
    rw [hw] at hone
    obtain ⟨-, hnil⟩ := List.cons.inj hone
    rw [hnil] at hi
    cases hi
  have hnew : ∀ i ∈ q.order ++ rest, i.released = false := by
    intro i hi
    rcases List.mem_append.mp hi with hi | hi
    · exact (microstep_chains hm i hi).2
    · exact hrest i hi
  cases hrun with
  | kept hkind hqueue hdeferring =>
    refine h.kept (r := { r with world }) hw hrest hnew hkey hevent hreleased hkind (fun hrel => ?_) hqueue hdeferring
    obtain ⟨-, hevents, inst, hi, hnot⟩ := h.alone item hmem hrel
    exact microstep_handled hm hevents hi hnot
  | joined hkind hi hdecide hroom hqueue hdeferring =>
    have hroot : item.released = false := by
      rw [← Bool.not_eq_true]
      intro hrel
      obtain ⟨-, -, inst, hinst, hnot⟩ := h.alone item hmem hrel
      rw [hi] at hinst
      cases hinst
      exact hnot _ hdecide
    exact h.joined (r := { r with world }) hw hrest hnew hkey hevent hreleased hkind hi hroot hroom hqueue hdeferring

/-- A released head goes from its queue into the hand. -/
theorem Ledger.released {item : Item κ υ} {r : Records κ υ ω} (h : Ledger e outs) (hw : e.worklist = [])
    (hr : release e.records = .ok (some (item, r))) :
    Ledger { e with records := r, worklist := [item] } outs := by
  obtain ⟨inst, head, tail, hi, hdeferred, hitem, hwaits, hr⟩ := releaseFrom_head hr
  have hqueue : r.queue = Function.update e.records.queue item.key (some (inst.chart.deferBound, tail)) := by
    rw [hr]
    exact queue_write
  have hbefore : e.records.queueOf item.key = head.event :: tail.map (·.event) := by
    rw [Records.queueOf, queue_some hi, hdeferred]
    rfl
  have hown : r.queueOf item.key = tail.map (·.event) := by
    rw [Records.queueOf, hqueue, Function.update_self]
    rfl
  have hother : ∀ key ≠ item.key, r.queueOf key = e.records.queueOf key := fun key hne =>
    queueOf_congr (by rw [hqueue, Function.update_of_ne hne])
  have hevent : item.event = head.event := by rw [hitem]
  have hrel : item.released = true := by rw [hitem]
  refine ⟨fun key bound queue hkept => ?_, fun key => ?_, fun key => ?_, fun i hmem _ => ?_, h.pooled, h.once⟩
  · dsimp only at hkept
    rw [hqueue] at hkept
    by_cases hk : key = item.key
    · rw [hk, Function.update_self] at hkept
      cases hkept
      have hlen := h.bounded item.key _ _ (queue_some hi)
      rw [hdeferred, List.length_cons] at hlen
      omega
    · rw [Function.update_of_ne hk] at hkept
      exact h.bounded key bound queue hkept
  · show key ∈ r.deferring ↔ r.queueOf key ≠ []
    have hlisted : key ∈ r.deferring ↔ key ∈ e.records.deferring ∧ (key = item.key → tail ≠ []) := by
      rw [hr]
      show key ∈ (if tail = [] then e.records.deferring.filter (· ≠ item.key) else e.records.deferring) ↔ _
      split
      · next hnil => simp [hnil]
      · next hne => exact ⟨fun hk => ⟨hk, fun _ => hne⟩, And.left⟩
    rw [hlisted, h.listed key]
    by_cases hk : key = item.key
    · rw [hk, hown, hbefore]
      simp
    · rw [hother key hk]
      exact ⟨And.left, fun hne => ⟨hne, fun heq => absurd heq hk⟩⟩
  · show _ = _ ++ inHandOf key [item] ++ r.queueOf key
    have hbalance := h.balance key
    rw [hw] at hbalance
    rw [hbalance, inHandOf_cons, hrel, hevent]
    by_cases hk : item.key = key
    · rw [← hk, hown, hbefore]
      simp [inHandOf]
    · rw [hother key (Ne.symm hk)]
      simp [inHandOf, hk]
  · rw [List.mem_singleton.mp hmem]
    refine ⟨rfl, by rw [hitem], { inst with deferred := tail }, ?_, fun states hstates => ?_⟩
    · show r.instances item.key = _
      rw [hr]
      exact write_self
    · have hworld : r.world = e.records.world := by rw [hr]; rfl
      have hwait : headWaits e.records inst item = .ok false := hwaits
      have hnot := (headWaits_iff hwait).mpr ⟨states, by rw [← hworld]; exact hstates⟩
      cases hnot

theorem Ledger.turn (h : Ledger e outs) (hs : e.turn after = .ok (some (e', out))) :
    Ledger e' (outs ++ out.toList) := by
  cases turn_cases hs with
  | step hw hm => exact h.step hw hm
  | released hw hr =>
    rw [Option.toList_none, List.append_nil]
    exact h.released hw hr
  | @pooled item pool hw hp =>
    rw [Option.toList_none, List.append_nil]
    have hroot : item.released = false := h.pooled item (hp ▸ List.mem_cons_self)
    refine ⟨h.bounded, h.listed, fun key => ?_, fun i hi hrel => ?_,
      fun i hi => h.pooled i (hp ▸ List.mem_cons_of_mem _ hi), h.once⟩
    · have hbalance := h.balance key
      rw [hw] at hbalance
      rw [hbalance, inHandOf_cons, if_neg fun hone => by simp [hroot] at hone]
      rfl
    · rw [List.mem_singleton.mp hi, hroot] at hrel
      cases hrel

/-- The tier's calls: an instance added or removed has no queue, and what they pool is no released event. -/
theorem Ledger.call (h : Ledger e outs) (hw : e.worklist = []) (hw' : e'.worklist = [])
    (hdeferring : e'.records.deferring = e.records.deferring)
    (hqueues : ∀ key, e'.records.queue key = e.records.queue key ∨
      e'.records.queueOf key = [] ∧ e.records.queueOf key = [])
    (hpool : ∀ item ∈ e'.pool, item ∈ e.pool ∨ item.released = false) : Ledger e' outs := by
  have hsame : ∀ key, e'.records.queueOf key = e.records.queueOf key := fun key =>
    (hqueues key).elim queueOf_congr fun hnone => hnone.1.trans hnone.2.symm
  refine ⟨fun key bound queue hkept => ?_, fun key => ?_, fun key => ?_, fun i hi => ?_, fun i hi => ?_, h.once⟩
  · rcases hqueues key with hkey | ⟨hnone, -⟩
    · exact h.bounded key bound queue (hkey ▸ hkept)
    · rw [Records.queueOf, hkept] at hnone
      have hnil : queue = [] := List.map_eq_nil_iff.mp hnone
      rw [hnil]
      exact Nat.zero_le _
  · rw [hdeferring, hsame]
    exact h.listed key
  · rw [hw', hsame, ← hw]
    exact h.balance key
  · rw [hw'] at hi
    cases hi
  · exact (hpool i hi).elim (h.pooled i) id

theorem add_queue {key : κ} {inst : Instance κ υ ω} (hs : e.add key inst = .ok e') (hnone : inst.deferred = []) :
    e'.worklist = e.worklist ∧ e'.pool = e.pool ∧ e'.records.deferring = e.records.deferring ∧
      ∀ k, e'.records.queue k = e.records.queue k ∨ e'.records.queueOf k = [] ∧ e.records.queueOf k = [] := by
  unfold Executor.add at hs
  split at hs
  · cases hs
  next hfree =>
    cases hs
    refine ⟨rfl, rfl, rfl, fun k => ?_⟩
    by_cases hk : k = key
    · right
      rw [hk]
      constructor
      · show (((Records.write _ key _).queue key).map _).getD [] = []
        rw [queue_write, Function.update_self]
        dsimp only [Option.map_some, Option.getD_some]
        rw [hnone]
        rfl
      · rw [Records.queueOf, Records.queue, hfree]
        rfl
    · left
      show (Records.write _ key _).queue k = _
      rw [queue_write, Function.update_of_ne hk]

theorem quiet_ledger [Inhabited υ] (h : Quiet after e outs) : Ledger e outs := by
  induction h with
  | idle world => exact ⟨nofun, fun key => ⟨nofun, fun h => absurd rfl h⟩, fun key => rfl, nofun, nofun, nofun⟩
  | outside _ hi world ih => exact ih.call hi hi rfl (fun key => .inl rfl) fun item hitem => .inl hitem
  | start _ hi hs ih =>
    obtain ⟨e₁, hadd, hs⟩ := bind_eq_ok.mp hs
    cases hs
    obtain ⟨hw, hpool, hdeferring, hqueues⟩ := add_queue hadd rfl
    refine ih.call hi (hw.trans hi) hdeferring hqueues fun item hitem => ?_
    rcases List.mem_append.mp hitem with hitem | hitem
    · exact .inl (hpool ▸ hitem)
    · rw [List.mem_singleton.mp hitem]
      exact .inr rfl
  | restore _ hi hs ih =>
    unfold Executor.restore at hs
    split at hs
    · cases hs
    · obtain ⟨hw, hpool, hdeferring, hqueues⟩ := add_queue hs rfl
      exact ih.call hi (hw.trans hi) hdeferring hqueues fun item hitem => .inl (hpool ▸ hitem)
  | post _ hi hs ih =>
    obtain ⟨inst, -, hs⟩ := bind_eq_ok.mp hs
    obtain ⟨_, -, hs⟩ := bind_eq_ok.mp hs
    cases hs
    refine ih.call hi hi rfl (fun key => .inl rfl) fun item hitem => ?_
    rcases List.mem_append.mp hitem with hitem | hitem
    · exact .inl hitem
    · rw [List.mem_singleton.mp hitem]
      exact .inr rfl
  | @forget e e' outs key _ hi hs ih =>
    obtain ⟨inst, hinst, hs⟩ := bind_eq_ok.mp hs
    have hinst := get_eq_ok.mp hinst
    dsimp only at hs
    split at hs
    · cases hs
    · split at hs
      · cases hs
      next hnone =>
        cases hs
        refine ih.call hi hi rfl (fun k => ?_) fun item hitem => .inl hitem
        by_cases hk : k = key
        · right
          rw [hk]
          constructor
          · show (((Records.queue _ key)).map _).getD [] = []
            rw [Records.queue]
            simp
          · rw [not_or, not_not] at hnone
            rw [Records.queueOf, Records.queue, hinst]
            dsimp only [Option.map_some, Option.getD_some]
            rw [hnone.1]
            rfl
        · left
          show (Function.update e.records.instances key none k).map _ = _
          rw [Function.update_of_ne hk, Records.queue]
  | turn _ hs ih => exact ih.turn hs

/-- Where a round finds nothing to do, each queue's head is one its configuration would defer again. -/
theorem Ledger.heads_wait (h : Ledger e outs) (hs : e.turn after = .ok none) {key : κ} {inst : Instance κ υ ω}
    {head : Deferred υ} {tail : List (Deferred υ)} (hi : e.records.instances key = some inst)
    (hdeferred : inst.deferred = head :: tail) : ∃ states, decideItem inst { key, kind := .event, event := head.event, released := true }
      (context inst { key, kind := .event, event := head.event, released := true }) e.records.world =
        .ok (.deferred states) := by
  have hnone : release e.records = .ok none := by
    unfold Executor.turn at hs
    split at hs
    · obtain ⟨_, -, hs⟩ := bind_eq_ok.mp hs
      cases hs
    · obtain ⟨found, hfound, hs⟩ := bind_eq_ok.mp hs
      cases found with
      | some p => cases hs
      | none => exact hfound
  have hkey : key ∈ e.records.deferring := by
    rw [h.listed, Records.queueOf, Records.queue, hi]
    dsimp only [Option.map_some, Option.getD_some]
    rw [hdeferred]
    exact List.cons_ne_nil _ _
  have horder : key ∈ e.records.releaseOrder := (List.perm_insertionSort _ _).mem_iff.mpr hkey
  obtain ⟨inst', head', tail', hi', hdeferred', hwaits⟩ := releaseFrom_none hnone key horder
  rw [hi] at hi'
  cases hi'
  rw [hdeferred] at hdeferred'
  cases hdeferred'
  exact (headWaits_iff hwaits).mp rfl

end Ledger

/-- Over every sequence of posts and runs that does not raise, an instance's queue stays within its bound; the
events that were deferred are, in this order, those released and handled, the one in hand and those still
queued; a released event is fired or discarded, and not deferred again; and when nothing is left to do, the
present configuration would defer each queue's head. -/
theorem deferred_ledger [Inhabited υ] {after : Hook κ υ ω} {e : Executor κ υ ω} {outs : List (Outcome κ υ)}
    (h : Quiet after e outs) (key : κ) :
    (∀ inst, e.records.instances key = some inst → inst.deferred.length ≤ inst.chart.deferBound) ∧
    deferredOf key outs = releasedOf key outs ++ inHandOf key e.worklist ++ e.records.queueOf key ∧
    (∀ out ∈ outs, out.released = true → out.kind = .fired ∨ out.kind = .discarded) ∧
    (e.turn after = .ok none → inHandOf key e.worklist = [] ∧
      ∀ inst head tail, e.records.instances key = some inst → inst.deferred = head :: tail →
        ∃ states, decideItem inst { key, kind := .event, event := head.event, released := true }
          (context inst { key, kind := .event, event := head.event, released := true }) e.records.world =
            .ok (.deferred states)) := by
  have hledger := quiet_ledger h
  refine ⟨fun inst hi => ?_, hledger.balance key, hledger.once, fun hs => ⟨?_, fun inst head tail hi hdeferred => ?_⟩⟩
  · exact hledger.bounded key _ _ (by rw [Records.queue, hi, Option.map_some])
  · have hnil : e.worklist = [] := by
      unfold Executor.turn at hs
      split at hs
      · obtain ⟨_, -, hs⟩ := bind_eq_ok.mp hs
        cases hs
      · assumption
    rw [hnil]
    rfl
  · exact hledger.heads_wait hs hi hdeferred

/-- A knock is deferred while the porch is shut. -/
def porch : Statechart Nat Unit Unit where
  name := "porch"
  root := .mk "all" [.mk "only" "shut" [.mk "shut" [] "" "" ["knock"] false [] "",
    .mk "ajar" [] "" "" [] false [] ""]] "" "" [] false [] ""
  rows := [
    { id := "porch.01", source := "shut", event := "open", target := "ajar" },
    { id := "porch.02", source := "ajar", event := "knock", kind := .internal }]
  deferBound := 2
  overflow := .stop
  clock := .logical

/-- A knock before the porch opens is released and handled after it. -/
theorem deferred_ledger_porch : ∃ (e : Executor Nat Unit Unit) (outs : List (Outcome Nat Unit)),
    (deferredOf 0 outs).map (·.name) = ["knock"] ∧ (releasedOf 0 outs).map (·.name) = ["knock"] ∧
      deferredOf 0 outs = releasedOf 0 outs ++ inHandOf 0 e.worklist ++ e.records.queueOf 0 := by
  have h₀ : Quiet (fun _ r => r.world) (Executor.idle () : Executor Nat Unit Unit) [] := .idle ()
  have h₁ := h₀.start rfl (rfl : Executor.start _ 0 porch () = .ok _)
  have h₂ := h₁.post rfl (rfl : Executor.post _ 0 { name := "knock", payload := () } = .ok _)
  have h₃ := h₂.post rfl (rfl : Executor.post _ 0 { name := "open", payload := () } = .ok _)
  have hrun : ∀ {e : Executor Nat Unit Unit}, Quiet (fun _ r => r.world) e [] →
      (e.run (fun _ r => r.world) 10).toOption.any (fun found => found.any fun p =>
        decide ((deferredOf 0 p.2).map (·.name) = ["knock"] ∧ (releasedOf 0 p.2).map (·.name) = ["knock"])) = true →
      ∃ (e : Executor Nat Unit Unit) (outs : List (Outcome Nat Unit)), Quiet (fun _ r => r.world) e outs ∧
        (deferredOf 0 outs).map (·.name) = ["knock"] ∧
        (releasedOf 0 outs).map (·.name) = ["knock"] := by
    intro e h hany
    obtain ⟨found, hfound, hany⟩ := exists_of_any hany
    obtain ⟨p, rfl, hp⟩ := (Option.any_eq_true _ _).mp hany
    obtain ⟨hdeferred, hreleased⟩ := of_decide_eq_true hp
    exact ⟨p.1, p.2, (run_quiet h hfound).1, hdeferred, hreleased⟩
  obtain ⟨e, outs, h₄, hdeferred, hreleased⟩ := hrun h₃ (by decide +kernel)
  exact ⟨e, outs, hdeferred, hreleased, (deferred_ledger h₄ 0).2.1⟩

end Dsl41.StateMachine
