import Dsl41.Infra.Result
import Dsl41.Runner.KeyOrder

/-!
# Tables that hold the same

Two tables hold the same when they differ only in the order of entries. A record folds into both
alike. The remembered end of an outcome is not part of it: only a plan reads it.
-/

namespace Dsl41.Runner

open Infra Infra.Json Canon

/-- Two JSON values with the same entries, in any order. -/
structure SameValue (v w : Value) : Prop where
  left : v.IsJson
  right : w.IsJson
  same : v.sorted = w.sorted

/-- An attempt with the entries of its values in key order. -/
def OpenAttempt.sorted (a : OpenAttempt) : OpenAttempt :=
  { a with
    spool := a.spool.sorted
    env := a.env.sorted
    after := a.after.sorted
    dispatch := a.dispatch.sorted }

structure OpenPlan.Same (p q : OpenPlan) : Prop where
  seq : p.seq = q.seq
  attempt : p.attempt = q.attempt
  job : p.job = q.job
  run_number : p.run_number = q.run_number
  plan : p.plan = q.plan
  steps : p.steps.map Value.sorted = q.steps.map Value.sorted
  done : Dict.Rel SameValue p.done q.done
  ended : p.ended = q.ended

/-- The attempts, the latest dispatches, the pending dispatches, the plans and the update are the
same. -/
structure OpenTable.Same (t u : OpenTable) : Prop where
  attempts : Dict.Rel (fun a b => a.sorted = b.sorted) t.attempts u.attempts
  dispatches : Dict.Rel SameValue t.dispatches u.dispatches
  pending : Dict.Rel (fun p q => p = q) t.pending u.pending
  plans : Dict.Rel OpenPlan.Same t.plans u.plans
  update : Option.Rel SameValue t.update u.update

/-! ## Values alike -/

section Values

variable {v w x : Value} {key : Str}

theorem SameValue.refl (h : v.IsJson) : SameValue v v := ⟨h, h, rfl⟩

theorem SameValue.symm (h : SameValue v w) : SameValue w v := ⟨h.right, h.left, h.same.symm⟩

theorem SameValue.item (h : SameValue v w) (hx : item v key = .ok x) : ∃ y, item w key = .ok y ∧ SameValue x y := by
  have hget : (Dict.getIn key (items v)).map Value.sorted = (Dict.getIn key (items w)).map Value.sorted := by
    rw [← items_sorted h.left, ← items_sorted h.right, h.same]
  rw [item_ok_iff] at hx
  rw [hx] at hget
  cases hy : Dict.getIn key (items w) with
  | none =>
    rw [hy] at hget
    cases hget
  | some y =>
    rw [hy] at hget
    exact ⟨y, item_ok_iff.mpr hy, isJson_getIn h.left hx, isJson_getIn h.right hy,
      Option.some.inj hget⟩

theorem SameValue.get (h : SameValue v w) : SameValue (dictGet v key) (dictGet w key) where
  left := isJson_get h.left
  right := isJson_get h.right
  same := by rw [← get_sorted h.left, ← get_sorted h.right, h.same]

theorem SameValue.equal_left (h : SameValue v w) (u : Value) : equal v u = equal w u :=
  equal_congr h.same rfl

theorem SameValue.equal_right (h : SameValue v w) (u : Value) : equal u v = equal u w :=
  equal_congr rfl h.same

end Values

theorem OpenPlan.Same.symm {p q : OpenPlan} (h : p.Same q) : q.Same p where
  seq := h.seq.symm
  attempt := h.attempt.symm
  job := h.job.symm
  run_number := h.run_number.symm
  plan := h.plan.symm
  steps := h.steps.symm
  done := h.done.symm fun hvw => hvw.symm
  ended := h.ended.symm

theorem OpenTable.Same.symm {t u : OpenTable} (h : t.Same u) : u.Same t where
  attempts := h.attempts.symm fun hab => hab.symm
  dispatches := h.dispatches.symm fun hvw => hvw.symm
  pending := h.pending.symm fun hpq => hpq.symm
  plans := h.plans.symm fun hpq => hpq.symm
  update := by
    have hupdate := h.update
    cases ht : t.update with
    | none =>
      rw [ht] at hupdate
      cases hu : u.update with
      | none => exact .none
      | some v => rw [hu] at hupdate; cases hupdate
    | some v =>
      rw [ht] at hupdate
      cases hu : u.update with
      | none => rw [hu] at hupdate; cases hupdate
      | some w =>
        rw [hu] at hupdate
        cases hupdate with
        | some hvw => exact .some hvw.symm

/-! ## The dispatch before -/

section Prior

variable {p q : Option Value} {body : Value} {seq first : Int} {b : Bool}

theorem sameRun_alike (h : Option.Rel SameValue p q) (hp : sameRun body p = .ok b) :
    sameRun body q = .ok b := by
  cases h with
  | none => exact hp
  | some hvw =>
    obtain ⟨x, hx, hp⟩ := bind_eq_ok.mp hp
    obtain ⟨run, hrun, hp⟩ := bind_eq_ok.mp hp
    obtain ⟨y, hy, hxy⟩ := hvw.item hx
    simp only [sameRun, hy, hrun, bind, Except.bind, ← hxy.equal_left run]
    exact hp

theorem checkReplacement_alike (h : Option.Rel SameValue p q) (hp : checkReplacement body first p = .ok ()) :
    checkReplacement body first q = .ok () := by
  cases h with
  | none => exact hp
  | some hvw =>
    obtain ⟨same, hsame, hp⟩ := bind_eq_ok.mp hp
    obtain ⟨x, hx, hp⟩ := bind_eq_ok.mp hp
    obtain ⟨y, hy, hxy⟩ := hvw.item hx
    simp only [checkReplacement, sameRun_alike (.some hvw) hsame, hy, bind, Except.bind,
      ← hxy.equal_left]
    exact hp

theorem checkDispatchSeq_alike {history : Bool} (h : Option.Rel SameValue p q)
    (hp : checkDispatchSeq body seq p history = .ok ()) :
    checkDispatchSeq body seq q history = .ok () := by
  obtain ⟨first, hfirst, hp⟩ := bind_eq_ok.mp hp
  obtain ⟨ordinal, hordinal, hp⟩ := bind_eq_ok.mp hp
  obtain ⟨same, hsame, hp⟩ := bind_eq_ok.mp hp
  simp only [checkDispatchSeq, hfirst, hordinal, sameRun_alike h hsame, bind, Except.bind]
  split at hp
  · cases hp
  · next hno =>
    rw [if_neg hno]
    exact checkReplacement_alike h hp

end Prior

/-! ## Bodies with one item more -/

section WithItem

variable {v body : Value} {key : Str} {es : List (Str × Value)}

theorem mem_setIn {e : Str × Value} : ∀ {es : List (Str × Value)},
    e ∈ Dict.setIn key v es → e = (key, v) ∨ e ∈ es
  | [], h => Or.inl (List.mem_singleton.mp h)
  | e' :: es, h => by
    rw [Dict.setIn] at h
    split at h
    · exact (List.mem_cons.mp h).imp id (List.mem_cons_of_mem _)
    · rcases List.mem_cons.mp h with rfl | h
      · exact Or.inr List.mem_cons_self
      · exact (mem_setIn h).imp id (List.mem_cons_of_mem _)

theorem isJson_items (h : body.IsJson) :
    ((items body).map Prod.fst).Nodup ∧ Value.IsObject (items body) := by
  cases body with
  | mapping es => exact h
  | _ => exact ⟨List.nodup_nil, trivial⟩

theorem isJson_withItem (h : body.IsJson) (hv : v.IsJson) (hkey : isScalarString key = true) :
    (withItem body key v).IsJson := by
  obtain ⟨hnodup, hobject⟩ := isJson_items h
  refine ⟨Dict.nodup_setIn hnodup, Value.isObject_iff.mpr fun e he => ?_⟩
  rcases mem_setIn he with rfl | he
  · exact ⟨hkey, hv⟩
  · exact Value.isObject_iff.mp hobject e he

theorem isJson_elements {vs : List Value} (h : body.IsJson) (hvs : elements body = .ok vs) :
    ∀ v ∈ vs, v.IsJson := by
  cases body with
  | list us =>
    cases hvs
    exact isArray_iff.mp h
  | mapping es =>
    cases hvs
    intro v hv
    obtain ⟨e, he, rfl⟩ := List.mem_map.mp hv
    exact (Value.isObject_iff.mp h.2 e he).1
  | str s =>
    cases hvs
    intro v hv
    obtain ⟨c, hc, rfl⟩ := List.mem_map.mp hv
    have hall : isScalarString s = true := h
    rw [isScalarString, List.all_eq_true] at hall
    show isScalarString [c] = true
    rw [isScalarString, List.all_eq_true]
    intro d hd
    rw [List.mem_singleton.mp hd]
    exact hall c hc
  | none => cases hvs
  | bool b => cases hvs
  | int i => cases hvs
  | float f t => cases h
  | datetime d => cases h
  | other t => cases h

theorem isJson_orNothing (h : body.IsJson) : (orNothing body).IsJson := by
  rw [orNothing]
  split
  · exact h
  · exact trivial

theorem isJson_orEmpty (h : body.IsJson) : (orEmpty body).IsJson := by
  rw [orEmpty]
  split
  · exact h
  · exact ⟨List.nodup_nil, trivial⟩

end WithItem

/-! ## One record -/

namespace OpenTable

section Note

variable {L : Library} {t u t' : OpenTable} {seq : Int} {body : Value} {record : Record}

/-- What folding a record into the one table gives, folding it into the other gives alike; the
remembered end is the same where it was the same before. -/
structure Follows (t u t' u' : OpenTable) : Prop where
  same : Same t' u'
  ended : t.ended = u.ended → t'.ended = u'.ended

theorem noteDispatch_same (h : Same t u) (hbody : body.IsJson)
    (ht : t.noteDispatch L seq body = .ok t') :
    ∃ u', u.noteDispatch L seq body = .ok u' ∧ Follows t u t' u' := by
  obtain ⟨jobValue, hjobValue, ht⟩ := bind_eq_ok.mp ht
  obtain ⟨job, hjob, ht⟩ := bind_eq_ok.mp ht
  obtain ⟨⟨⟩, hseq, ht⟩ := bind_eq_ok.mp ht
  obtain ⟨attemptValue, hattemptValue, ht⟩ := bind_eq_ok.mp ht
  obtain ⟨attempt, hattempt, ht⟩ := bind_eq_ok.mp ht
  obtain ⟨runValue, hrunValue, ht⟩ := bind_eq_ok.mp ht
  obtain ⟨run_number, hrun, ht⟩ := bind_eq_ok.mp ht
  obtain ⟨ordinal, hordinal, ht⟩ := bind_eq_ok.mp ht
  obtain ⟨startedValue, hstarted, ht⟩ := bind_eq_ok.mp ht
  obtain ⟨env, henv, ht⟩ := bind_eq_ok.mp ht
  cases ht
  have hseq' := checkDispatchSeq_alike (h.dispatches job) hseq
  have hheld : SameValue (withItem body (name "seq") (.int seq)) (withItem body (name "seq") (.int seq)) :=
    .refl (isJson_withItem hbody trivial (by decide))
  simp only [noteDispatch, hjobValue, hjob, hseq', hattemptValue, hattempt, hrunValue, hrun, hordinal,
    hstarted, henv, bind, Except.bind]
  refine ⟨_, rfl, ⟨h.attempts.set rfl, h.dispatches.set hheld, ?_, h.plans, h.update⟩, id⟩
  cases wireInt? (dictGet body (name "discharges")) with
  | none => exact h.pending
  | some discharged => exact h.pending.erase

theorem noteOutcome_same (h : Same t u) (ht : t.noteOutcome L body = .ok t') :
    ∃ u', u.noteOutcome L body = .ok u' ∧ Same t' u' ∧ t'.ended = u'.ended := by
  obtain ⟨attempt, hattempt, ht⟩ := bind_eq_ok.mp ht
  obtain ⟨ended, hended, ht⟩ := bind_eq_ok.mp ht
  cases ht
  simp only [noteOutcome, hattempt, hended, bind, Except.bind]
  refine ⟨_, rfl, ⟨?_, h.dispatches, h.pending, h.plans, h.update⟩, rfl⟩
  cases equal (dictGet body (name "ladder")) (.str (name "running")) with
  | false => exact h.attempts.erase
  | true =>
    cases hheld : t.attempts.get? (pyStr L attempt) with
    | none =>
      rw [h.attempts.none hheld]
      exact h.attempts.erase
    | some held =>
      obtain ⟨held', hheld', hsame⟩ := h.attempts.some hheld
      rw [hheld']
      refine h.attempts.set ?_
      exact congrArg (fun a : OpenAttempt => { a with
        closing := true
        outcome := some (pyStr L (dictGet body (name "outcome"))) }) hsame

theorem set_same {attempts attempts' : Dict Str OpenAttempt} {k k' : Str} {a b : OpenAttempt}
    (h : Dict.Rel (fun a b => a.sorted = b.sorted) attempts attempts') (hk : k = k')
    (hab : a.sorted = b.sorted) :
    Dict.Rel (fun a b => a.sorted = b.sorted) (attempts.set k a) (attempts'.set k' b) := by
  subst hk
  exact h.set hab

theorem stopAttempt_same {draining : Bool} {attempts attempts' : Dict Str OpenAttempt}
    (h : Dict.Rel (fun a b => a.sorted = b.sorted) attempts attempts') (stop : Str × Value) :
    Dict.Rel (fun a b => a.sorted = b.sorted) (stopAttempt L draining attempts stop)
      (stopAttempt L draining attempts' stop) := by
  rw [stopAttempt, stopAttempt]
  cases hheld : attempts.get? stop.1 with
  | none =>
    rw [h.none hheld]
    exact h
  | some held =>
    obtain ⟨held', hheld', hsame⟩ := h.some hheld
    have hstop : held.sorted.stop = held'.sorted.stop := by rw [hsame]
    change held.stop = held'.stop at hstop
    rw [hheld']
    simp only [hstop]
    split
    · exact h.set (congrArg (fun a : OpenAttempt => { a with stop := some (pyStr L stop.2) }) hsame)
    · exact h

theorem foldl_stopAttempt_same {draining : Bool} {stops : List (Str × Value)}
    {attempts attempts' : Dict Str OpenAttempt}
    (h : Dict.Rel (fun a b => a.sorted = b.sorted) attempts attempts') :
    Dict.Rel (fun a b => a.sorted = b.sorted) (stops.foldl (stopAttempt L draining) attempts)
      (stops.foldl (stopAttempt L draining) attempts') := by
  induction stops generalizing attempts attempts' with
  | nil => exact h
  | cons stop stops ih => exact ih (stopAttempt_same h stop)

theorem noteStops_same (h : Same t u) (ht : t.noteStops L body = .ok t') :
    ∃ u', u.noteStops L body = .ok u' ∧ Follows t u t' u' := by
  obtain ⟨stops, hstops, ht⟩ := bind_eq_ok.mp ht
  by_cases hdraining : isEvent body "draining" = true
  · rw [if_pos hdraining] at ht
    obtain ⟨unsettled, hunsettled, ht⟩ := bind_eq_ok.mp ht
    cases ht
    simp only [noteStops, hstops, hunsettled, if_pos hdraining, bind, Except.bind]
    exact ⟨_, rfl, ⟨foldl_stopAttempt_same h.attempts, h.dispatches, h.pending, h.plans, h.update⟩, id⟩
  · rw [if_neg hdraining] at ht
    cases ht
    simp only [noteStops, hstops, if_neg hdraining, bind, Except.bind]
    exact ⟨_, rfl, ⟨foldl_stopAttempt_same h.attempts, h.dispatches, h.pending, h.plans, h.update⟩, id⟩

theorem notePending_same (h : Same t u) (ht : t.notePending L seq body = .ok t') :
    ∃ u', u.notePending L seq body = .ok u' ∧ Follows t u t' u' := by
  rw [notePending] at ht
  split at ht
  · next hevent =>
    obtain ⟨job, hjob, ht⟩ := bind_eq_ok.mp ht
    obtain ⟨runValue, hrunValue, ht⟩ := bind_eq_ok.mp ht
    obtain ⟨run_number, hrun, ht⟩ := bind_eq_ok.mp ht
    obtain ⟨scheduled, hscheduled, ht⟩ := bind_eq_ok.mp ht
    cases ht
    simp only [notePending, if_pos hevent, hjob, hrunValue, hrun, hscheduled, bind, Except.bind]
    exact ⟨_, rfl, ⟨h.attempts, h.dispatches, h.pending.set rfl, h.plans, h.update⟩, id⟩
  · next hevent =>
    obtain ⟨pendingValue, hpending, ht⟩ := bind_eq_ok.mp ht
    obtain ⟨discharged, hdischarged, ht⟩ := bind_eq_ok.mp ht
    cases ht
    simp only [notePending, if_neg hevent, hpending, hdischarged, bind, Except.bind]
    exact ⟨_, rfl, ⟨h.attempts, h.dispatches, h.pending.erase, h.plans, h.update⟩, id⟩

theorem notePlan_same (h : Same t u) (hended : t.ended = u.ended) {attempt : Str}
    (ht : t.notePlan L seq attempt body = .ok t') :
    ∃ u', u.notePlan L seq attempt body = .ok u' ∧ Follows t u t' u' := by
  obtain ⟨values, hvalues, ht⟩ := bind_eq_ok.mp ht
  obtain ⟨steps, hsteps, ht⟩ := bind_eq_ok.mp ht
  split at ht
  · next hnone =>
    cases ht
    simp only [notePlan, hvalues, hsteps, if_pos hnone, bind, Except.bind]
    exact ⟨u, rfl, h, id⟩
  · next hsome =>
    obtain ⟨job, hjob, ht⟩ := bind_eq_ok.mp ht
    obtain ⟨runValue, hrunValue, ht⟩ := bind_eq_ok.mp ht
    obtain ⟨run_number, hrun, ht⟩ := bind_eq_ok.mp ht
    obtain ⟨plan, hplan, ht⟩ := bind_eq_ok.mp ht
    cases ht
    simp only [notePlan, hvalues, hsteps, if_neg hsome, hjob, hrunValue, hrun, hplan, bind,
      Except.bind]
    refine ⟨_, rfl, ⟨h.attempts, h.dispatches, h.pending, h.plans.set ?_, h.update⟩, id⟩
    exact ⟨rfl, rfl, rfl, rfl, rfl, rfl, Dict.rel_empty, by rw [hended]⟩

theorem finished_same {p q : OpenPlan} (h : p.Same q) : p.finished = q.finished := by
  have hlen : p.steps.length = q.steps.length := by
    rw [← List.length_map Value.sorted, h.steps, List.length_map]
  rw [OpenPlan.finished, OpenPlan.finished, hlen]
  congr 1
  funext i
  cases hi : p.done.get? (i : Int) with
  | none => rw [h.done.none hi]
  | some v =>
    obtain ⟨w, hw, -⟩ := h.done.some hi
    rw [hw]
    rfl

theorem noteFollowUp_same (h : Same t u) (hbody : body.IsJson)
    (hended : isEvent body "plan" = true → t.ended = u.ended)
    (ht : t.noteFollowUp L seq body = .ok t') :
    ∃ u', u.noteFollowUp L seq body = .ok u' ∧ Follows t u t' u' := by
  obtain ⟨attempt, hattempt, ht⟩ := bind_eq_ok.mp ht
  split at ht
  · next hladder =>
    cases ht
    simp only [noteFollowUp, hattempt, if_pos hladder, bind, Except.bind]
    exact ⟨_, rfl, ⟨h.attempts.erase, h.dispatches, h.pending, h.plans, h.update⟩, id⟩
  · next hladder =>
    split at ht
    · next hplan =>
      simp only [noteFollowUp, hattempt, if_neg hladder, if_pos hplan, bind, Except.bind]
      exact notePlan_same h (hended hplan) ht
    · next hplan =>
      simp only [noteFollowUp, hattempt, if_neg hladder, if_neg hplan, bind, Except.bind]
      dsimp only at ht
      cases hheld : t.plans.get? (pyStr L attempt) with
      | none =>
        rw [hheld] at ht
        cases ht
        rw [h.plans.none hheld]
        exact ⟨u, rfl, h, id⟩
      | some plan =>
        rw [hheld] at ht
        obtain ⟨discharged, hdischarged, ht⟩ := bind_eq_ok.mp ht
        obtain ⟨stepValue, hstepValue, ht⟩ := bind_eq_ok.mp ht
        obtain ⟨step, hstep, ht⟩ := bind_eq_ok.mp ht
        cases ht
        obtain ⟨plan', hplan', hsame⟩ := h.plans.some hheld
        have hvalue : SameValue discharged discharged :=
          .refl (isJson_getIn hbody (item_ok_iff.mp hdischarged))
        have hdone : OpenPlan.Same { plan with done := plan.done.set step discharged }
            { plan' with done := plan'.done.set step discharged } :=
          { hsame with done := hsame.done.set hvalue }
        rw [hplan']
        simp only [hdischarged, hstepValue, hstep]
        refine ⟨_, rfl, ⟨h.attempts, h.dispatches, h.pending, ?_, h.update⟩, id⟩
        show Dict.Rel _ (if _ then _ else _) (if _ then _ else _)
        rw [← finished_same hdone]
        split
        · exact h.plans.erase
        · exact h.plans.set hdone

theorem stopEntry_same {entry : Value} {attempts attempts' held : Dict Str OpenAttempt}
    (h : Dict.Rel (fun a b => a.sorted = b.sorted) attempts attempts')
    (ht : stopEntry L attempts entry = .ok held) :
    ∃ held', stopEntry L attempts' entry = .ok held' ∧
      Dict.Rel (fun a b => a.sorted = b.sorted) held held' := by
  obtain ⟨attempt, hattempt, ht⟩ := bind_eq_ok.mp ht
  simp only [stopEntry, hattempt, bind, Except.bind]
  dsimp only at ht
  cases hold : attempts.get? (pyStr L attempt) with
  | none =>
    rw [hold] at ht
    cases ht
    rw [h.none hold]
    exact ⟨_, rfl, h⟩
  | some a =>
    rw [hold] at ht
    obtain ⟨a', hold', hsame⟩ := h.some hold
    have hstop : a.sorted.stop = a'.sorted.stop := by rw [hsame]
    have hid : a.sorted.attempt = a'.sorted.attempt := by rw [hsame]
    change a.stop = a'.stop at hstop
    change a.attempt = a'.attempt at hid
    rw [hold']
    dsimp only at ht
    simp only [← hstop]
    by_cases hnone : a.stop = none
    · rw [if_pos hnone] at ht ⊢
      cases ht
      exact ⟨_, rfl, set_same h hid (congrArg (fun a : OpenAttempt => { a with
        stop := some (if truthy (dictGet entry (name "cause")) then
          pyStr L (dictGet entry (name "cause")) else name "update_stop") }) hsame)⟩
    · rw [if_neg hnone] at ht ⊢
      cases ht
      exact ⟨_, rfl, h⟩

theorem stopEntries_same : ∀ {entries : List Value} {attempts attempts' held : Dict Str OpenAttempt},
    Dict.Rel (fun a b => a.sorted = b.sorted) attempts attempts' →
    entries.foldlM (stopEntry L) attempts = .ok held →
    ∃ held', entries.foldlM (stopEntry L) attempts' = .ok held' ∧
      Dict.Rel (fun a b => a.sorted = b.sorted) held held'
  | [], attempts, attempts', held, h, ht => by
    cases ht
    exact ⟨_, rfl, h⟩
  | entry :: entries, attempts, attempts', held, h, ht => by
    rw [List.foldlM_cons] at ht
    obtain ⟨next, hnext, ht⟩ := bind_eq_ok.mp ht
    obtain ⟨next', hnext', h⟩ := stopEntry_same h hnext
    rw [List.foldlM_cons, hnext']
    exact stopEntries_same h ht

theorem noteConfig_same (h : Same t u) (hbody : body.IsJson) (ht : t.noteConfig L seq body = .ok t') :
    ∃ u', u.noteConfig L seq body = .ok u' ∧ Follows t u t' u' := by
  rw [noteConfig] at ht
  split at ht
  · next hintent =>
    obtain ⟨stops, hstops, ht⟩ := bind_eq_ok.mp ht
    obtain ⟨attempts, hattempts, ht⟩ := bind_eq_ok.mp ht
    cases ht
    obtain ⟨attempts', hattempts', hsame⟩ := stopEntries_same h.attempts hattempts
    simp only [noteConfig, if_pos hintent, hstops, hattempts', bind, Except.bind]
    refine ⟨_, rfl, ⟨hsame, h.dispatches, h.pending, h.plans, .some ?_⟩, id⟩
    exact .refl (isJson_withItem hbody trivial (by decide))
  · next hintent =>
    rw [noteConfig, if_neg hintent]
    have hupdate := h.update
    cases hheld : t.update with
    | none =>
      rw [hheld] at ht hupdate
      cases hheld' : u.update with
      | none =>
        cases ht
        exact ⟨u, rfl, h, id⟩
      | some update' =>
        rw [hheld'] at hupdate
        cases hupdate
    | some update =>
      rw [hheld] at ht hupdate
      cases hheld' : u.update with
      | none =>
        rw [hheld'] at hupdate
        cases hupdate
      | some update' =>
        rw [hheld'] at hupdate
        cases hupdate with
        | some hvw =>
          dsimp only at ht ⊢
          rw [← hvw.get.equal_right]
          split at ht
          · next htoken =>
            cases ht
            rw [if_pos htoken]
            exact ⟨_, rfl, ⟨h.attempts, h.dispatches, h.pending, h.plans, .none⟩, id⟩
          · next htoken =>
            cases ht
            rw [if_neg htoken]
            exact ⟨u, rfl, h, id⟩

/-- A plan carries the end of the outcome noted before it. -/
def isPlan (record : Record) : Bool :=
  record.kind = name "follow_up" && isEvent record.payload "plan"

theorem note_same (h : Same t u) (hbody : record.payload.IsJson)
    (hended : isPlan record = true → t.ended = u.ended) (ht : t.note L seq record = .ok t') :
    ∃ u', u.note L seq record = .ok u' ∧ Follows t u t' u' ∧
      (record.kind = name "outcome" → t'.ended = u'.ended) := by
  obtain ⟨⟨⟩, hcheck, ht⟩ := bind_eq_ok.mp ht
  simp only [note, hcheck, bind, Except.bind]
  dsimp only at ht
  by_cases hdispatch : record.kind = name "dispatch"
  · rw [if_pos hdispatch] at ht ⊢
    obtain ⟨u', hu, hfollows⟩ := noteDispatch_same h hbody ht
    exact ⟨u', hu, hfollows, fun hkind => absurd (hdispatch.symm.trans hkind) (by decide)⟩
  rw [if_neg hdispatch] at ht ⊢
  by_cases houtcome : record.kind = name "outcome"
  · rw [if_pos houtcome] at ht ⊢
    obtain ⟨u', hu, hsame, hends⟩ := noteOutcome_same h ht
    exact ⟨u', hu, ⟨hsame, fun _ => hends⟩, fun _ => hends⟩
  rw [if_neg houtcome] at ht ⊢
  have hother : ∀ {x : Except Error OpenTable}, (∃ u', x = .ok u' ∧ Follows t u t' u') →
      ∃ u', x = .ok u' ∧ Follows t u t' u' ∧
        (record.kind = name "outcome" → t'.ended = u'.ended) :=
    fun ⟨u', hu, hfollows⟩ => ⟨u', hu, hfollows, fun hkind => absurd hkind houtcome⟩
  refine hother ?_
  split at ht
  · next hengine =>
    rw [if_pos hengine]
    exact noteStops_same h ht
  · next hengine =>
    rw [if_neg hengine]
    split at ht
    · next hpending =>
      rw [if_pos hpending]
      exact notePending_same h ht
    · next hpending =>
      rw [if_neg hpending]
      split at ht
      · next hfollow =>
        rw [if_pos hfollow]
        refine noteFollowUp_same h hbody (fun hplan => hended ?_) ht
        rw [isPlan, hplan, hfollow]
        rfl
      · next hfollow =>
        rw [if_neg hfollow]
        split at ht
        · next hconfig =>
          rw [if_pos hconfig]
          exact noteConfig_same h hbody ht
        · next hconfig =>
          rw [if_neg hconfig]
          cases ht
          exact ⟨u, rfl, h, id⟩

end Note

end OpenTable

end Dsl41.Runner
