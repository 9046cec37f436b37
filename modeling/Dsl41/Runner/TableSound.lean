import Dsl41.Runner.TableSame

/-!
# What the open table holds

Every dispatch in the table was accepted, and an open attempt has the fields of its dispatch. So
the payload of a table is a JSON value. The one thing the reader asks beyond it is that an attempt
of the run its job dispatched last has the first seq of that run.
-/

namespace Dsl41.Runner

open Infra Infra.Json Canon

variable {L : Library} {body v w : Value} {key k : Str} {seq last : Int}

/-! ## Items -/

@[simp] theorem item_withItem_self : item (withItem body key v) key = .ok v := by
  rw [item_ok_iff, withItem, items, Dict.getIn_setIn, if_pos rfl]

theorem item_withItem (h : key ≠ k) (hw : item body key = .ok w) :
    item (withItem body k v) key = .ok w := by
  rw [item_ok_iff] at hw ⊢
  rw [withItem, items, Dict.getIn_setIn, if_neg h, hw]

theorem get_of_item (h : item body key = .ok v) : dictGet body key = v := by
  rw [item_ok_iff] at h
  rw [dictGet, h, Option.getD_some]

theorem field?_eq_ok : field? body key = .ok v ↔ item body key = .ok v := by
  rw [item_ok_iff, field?]
  cases Dict.getIn key (items body) with
  | none => exact ⟨by rintro ⟨⟩, by rintro ⟨⟩⟩
  | some w =>
    constructor
    · intro h; cases h; rfl
    · intro h; cases h; rfl

theorem field?_withItem (h : key ≠ k) : field? (withItem body k v) key = field? body key := by
  rw [field?, withItem, items, Dict.getIn_setIn, if_neg h, field?]

theorem isJson_item (h : body.IsJson) (hv : item body key = .ok v) : v.IsJson :=
  isJson_getIn h (item_ok_iff.mp hv)

/-- The check of a dispatch reads nothing of the seq it is given. -/
theorem checkDispatch_withItem :
    checkDispatch L (withItem body (name "seq") v) = checkDispatch L body := by
  simp only [checkDispatch, dispatchFault, field?_withItem, ne_eq, name_inj,
    String.reduceEq, not_false_eq_true]

/-! ## An accepted dispatch -/

/-- The numbers an accepted dispatch holds, and the values its attempt takes of it. -/
structure Accepted (body : Value) : Prop where
  first : ∃ i, item body (name "first_dispatch_seq") = .ok (.int i)
  run_number : ∃ i, item body (name "run_number") = .ok (.int i)
  ordinal : ∃ i, item body (name "ordinal") = .ok (.int i)
  spool : ∃ v, item body (name "spool") = .ok v
  started_at : ∃ s, item body (name "started_at") = .ok (.str s)
  env : ∃ es, item body (name "env") = .ok (.mapping es)

theorem int_of_checkInt {what : String} {least : Int} (h : checkInt what least v = .ok ()) :
    ∃ i, v = .int i := by
  cases v with
  | int i => exact ⟨i, rfl⟩
  | _ => cases h

theorem accepted_of_checkDispatch (h : checkDispatch L body = .ok ()) : Accepted body := by
  rw [checkDispatch] at h
  have h : dispatchFault L body = .ok () := by
    revert h
    cases dispatchFault L body with
    | error e => exact fun h => by cases h
    | ok u => exact fun _ => rfl
  obtain ⟨first, hfirst, h⟩ := bind_eq_ok.mp h
  obtain ⟨⟨⟩, hfirst', h⟩ := bind_eq_ok.mp h
  obtain ⟨run_number, hrun, h⟩ := bind_eq_ok.mp h
  obtain ⟨⟨⟩, hrun', h⟩ := bind_eq_ok.mp h
  obtain ⟨ordinal, hordinal, h⟩ := bind_eq_ok.mp h
  obtain ⟨⟨⟩, hordinal', h⟩ := bind_eq_ok.mp h
  obtain ⟨_, _, h⟩ := bind_eq_ok.mp h
  obtain ⟨_, _, h⟩ := bind_eq_ok.mp h
  obtain ⟨spool, hspool, h⟩ := bind_eq_ok.mp h
  obtain ⟨_, _, h⟩ := bind_eq_ok.mp h
  obtain ⟨_, _, h⟩ := bind_eq_ok.mp h
  obtain ⟨_, _, h⟩ := bind_eq_ok.mp h
  obtain ⟨_, _, h⟩ := bind_eq_ok.mp h
  obtain ⟨_, _, h⟩ := bind_eq_ok.mp h
  obtain ⟨env, henv, h⟩ := bind_eq_ok.mp h
  obtain ⟨⟨⟩, henv', h⟩ := bind_eq_ok.mp h
  obtain ⟨_, _, h⟩ := bind_eq_ok.mp h
  obtain ⟨_, _, h⟩ := bind_eq_ok.mp h
  obtain ⟨_, _, h⟩ := bind_eq_ok.mp h
  obtain ⟨_, _, h⟩ := bind_eq_ok.mp h
  obtain ⟨_, _, h⟩ := bind_eq_ok.mp h
  obtain ⟨_, _, h⟩ := bind_eq_ok.mp h
  obtain ⟨started, hstarted, h⟩ := bind_eq_ok.mp h
  obtain ⟨⟨⟩, hstarted', h⟩ := bind_eq_ok.mp h
  rw [field?_eq_ok] at hfirst hrun hordinal hspool henv hstarted
  obtain ⟨i, rfl⟩ := int_of_checkInt hfirst'
  obtain ⟨i', rfl⟩ := int_of_checkInt hrun'
  obtain ⟨i'', rfl⟩ := int_of_checkInt hordinal'
  refine ⟨⟨i, hfirst⟩, ⟨i', hrun⟩, ⟨i'', hordinal⟩, ⟨spool, hspool⟩, ?_, ?_⟩
  · cases started with
    | str s => exact ⟨s, hstarted⟩
    | _ => cases hstarted'
  · cases env with
    | mapping es => exact ⟨es, henv⟩
    | _ => cases henv'

/-! ## The invariant -/

/-- A dispatch the table keeps of a job, at a seq up to the last. -/
structure Dispatched (L : Library) (last : Int) (job : Str) (body : Value) : Prop where
  json : body.IsJson
  accepted : checkDispatch L body = .ok ()
  job : item body (name "job") = .ok (.str job)
  seq : ∃ seq first, item body (name "seq") = .ok (.int seq) ∧ 1 ≤ seq ∧ seq ≤ last ∧
    item body (name "first_dispatch_seq") = .ok (.int first) ∧ first ≤ seq

/-- The attempt's job has a latest dispatch. -/
def Known (dispatches : Dict Str Value) (a : OpenAttempt) : Prop :=
  ∃ body, dispatches.get? a.job = some body

/-- An open attempt has the fields of its dispatch. -/
structure OpenAttempt.Sound (L : Library) (last : Int) (a : OpenAttempt) : Prop where
  dispatched : Dispatched L last a.job a.dispatch
  attempt : item a.dispatch (name "attempt") = .ok (.str a.attempt)
  run_number : item a.dispatch (name "run_number") = .ok (.int a.run_number)
  ordinal : item a.dispatch (name "ordinal") = .ok (.int a.ordinal)
  spool : item a.dispatch (name "spool") = .ok a.spool
  seq : item a.dispatch (name "seq") = .ok (.int a.seq)
  started_at : item a.dispatch (name "started_at") = .ok (.str a.started_at)
  env : item a.dispatch (name "env") = .ok a.env
  env_mapping : ∃ es, a.env = .mapping es
  after : a.after.IsJson
  stop : ∀ s ∈ a.stop, isScalarString s = true
  outcome : ∀ s ∈ a.outcome, isScalarString s = true

structure PendingDispatch.Sound (p : PendingDispatch) : Prop where
  job : isScalarString p.job = true
  scheduled_at : isScalarString p.scheduled_at = true

structure OpenPlan.Sound (p : OpenPlan) : Prop where
  attempt : isScalarString p.attempt = true
  job : isScalarString p.job = true
  plan : isScalarString p.plan = true
  steps : ∀ step ∈ p.steps, step.IsJson ∧ ∃ es, step = .mapping es
  checked : checkSteps (.list p.steps) = .ok ()
  done : ∀ i v, p.done.get? i = some v → v.IsJson
  ended : ∀ s ∈ p.ended, isScalarString s = true

/-- What the table holds after records up to the last seq. -/
structure OpenTable.Sound (L : Library) (last : Int) (t : OpenTable) : Prop where
  dispatches : ∀ job body, t.dispatches.get? job = some body → Dispatched L last job body
  attempts : ∀ id a, t.attempts.get? id = some a →
    a.attempt = id ∧ a.Sound L last ∧ Known t.dispatches a
  pending : ∀ n p, t.pending.get? n = some p → p.seq = n ∧ p.Sound
  plans : ∀ id p, t.plans.get? id = some p → p.attempt = id ∧ p.Sound
  update : ∀ u ∈ t.update, u.IsJson ∧ ∃ es, u = .mapping es
  ended : ∀ e ∈ t.ended, ∀ s ∈ e.2, isScalarString s = true

theorem Dispatched.mono {job : Str} {last' : Int} (h : Dispatched L last job body) (hle : last ≤ last') :
    Dispatched L last' job body := by
  obtain ⟨seq, first, hseq, hpos, hlast, hfirst, hfirst_le⟩ := h.seq
  exact { h with seq := ⟨seq, first, hseq, hpos, by omega, hfirst, hfirst_le⟩ }

theorem OpenAttempt.Sound.mono {a : OpenAttempt} {last' : Int} (h : a.Sound L last) (hle : last ≤ last') :
    a.Sound L last' := { h with dispatched := h.dispatched.mono hle }

namespace OpenTable

variable {t t' : OpenTable} {record : Record}

theorem Sound.mono {last' : Int} (h : t.Sound L last) (hle : last ≤ last') : t.Sound L last' :=
  { h with
    dispatches := fun job body hget => (h.dispatches job body hget).mono hle
    attempts := fun id a hget =>
      let ⟨hid, ha, hknown⟩ := h.attempts id a hget
      ⟨hid, ha.mono hle, hknown⟩ }

theorem sound_empty : empty.Sound L last where
  dispatches := fun _ _ h => nomatch h
  attempts := fun _ _ h => nomatch h
  pending := fun _ _ h => nomatch h
  plans := fun _ _ h => nomatch h
  update := fun _ h => nomatch h
  ended := fun _ h => nomatch h

/-! ## One record -/

theorem equal_int {i j : Int} : equal (.int i) (.int j) = true ↔ i = j := by
  simp [equal, Value.sorted, equalSorted, number?]

theorem isScalarString_pyStr (h : v.IsJson) : isScalarString (pyStr L v) = true := by
  cases v with
  | str s => exact h
  | none => exact L.scalar_repr _ h
  | bool b => exact L.scalar_repr _ h
  | int i => exact L.scalar_repr _ h
  | float f t => exact L.scalar_repr _ h
  | datetime d => exact L.scalar_repr _ h
  | mapping es => exact L.scalar_repr _ h
  | list vs => exact L.scalar_repr _ h
  | other t => exact L.scalar_repr _ h

/-- The first seq of a run is not after the dispatch. -/
theorem checkDispatchSeq_ok {prior : Option Value} {first : Int} {history : Bool}
    (hfirst : item body (name "first_dispatch_seq") = .ok (.int first))
    (h : checkDispatchSeq body seq prior history = .ok ()) : first ≤ seq := by
  obtain ⟨first', hfirst', h⟩ := bind_eq_ok.mp h
  obtain ⟨ordinal, -, h⟩ := bind_eq_ok.mp h
  obtain ⟨same, -, h⟩ := bind_eq_ok.mp h
  rw [intItem, hfirst] at hfirst'
  cases hfirst'
  split at h
  · cases h
  · next hno =>
    simp only [Bool.or_eq_true, decide_eq_true_eq, not_or, not_lt] at hno
    exact hno.1

theorem orEmpty_mapping (es : List (Str × Value)) : orEmpty (.mapping es) = .mapping es := by
  rw [orEmpty]
  split
  · rfl
  · next hempty =>
    cases es with
    | nil => rfl
    | cons e es => exact absurd rfl hempty

theorem noteDispatch_sound (h : t.Sound L last) (hlast : 0 ≤ last) (hbody : body.IsJson)
    (hcheck : checkDispatch L body = .ok ())
    (ht : t.noteDispatch L (last + 1) body = .ok t') : t'.Sound L (last + 1) := by
  obtain ⟨jobValue, hjobValue, ht⟩ := bind_eq_ok.mp ht
  obtain ⟨job, hjob, ht⟩ := bind_eq_ok.mp ht
  obtain ⟨⟨⟩, hseq, ht⟩ := bind_eq_ok.mp ht
  obtain ⟨attemptValue, hattemptValue, ht⟩ := bind_eq_ok.mp ht
  obtain ⟨attempt, hattempt, ht⟩ := bind_eq_ok.mp ht
  obtain ⟨runValue, hrunValue, ht⟩ := bind_eq_ok.mp ht
  obtain ⟨run_number, hrun, ht⟩ := bind_eq_ok.mp ht
  obtain ⟨ordinal, hordinal, ht⟩ := bind_eq_ok.mp ht
  obtain ⟨startedValue, hstarted, ht⟩ := bind_eq_ok.mp ht
  obtain ⟨env, henv, ht⟩ := bind_eq_ok.mp ht
  cases ht
  -- the values the accepted dispatch has are the ones the attempt takes
  obtain ⟨⟨first, hfirst⟩, ⟨run, hrunItem⟩, ⟨ord, hord⟩, ⟨spool, hspool⟩, ⟨started, hstartedItem⟩,
    ⟨es, henvItem⟩⟩ := accepted_of_checkDispatch hcheck
  have hjobItem : item body (name "job") = .ok (.str job) := by
    cases jobValue with
    | str s => cases hjob; exact hjobValue
    | _ => cases hjob
  have hattemptItem : item body (name "attempt") = .ok (.str attempt) := by
    cases attemptValue with
    | str s => cases hattempt; exact hattemptValue
    | _ => cases hattempt
  have hrun_eq : run_number = run := by
    rw [hrunItem] at hrunValue
    cases hrunValue
    cases hrun
    rfl
  have hordinal_eq : ordinal = ord := by
    rw [item_ok_iff.mp hord] at hordinal
    cases hordinal
    rfl
  have hstarted_eq : startedValue = .str started := by
    rw [hstartedItem] at hstarted
    exact (Except.ok.inj hstarted).symm
  have henv_eq : env = .mapping es := by
    rw [get_of_item henvItem, orEmpty_mapping] at henv
    exact (Except.ok.inj henv).symm
  subst hrun_eq hordinal_eq hstarted_eq henv_eq
  have hfirst_le := checkDispatchSeq_ok hfirst hseq
  -- the body with its seq is what the table keeps
  have hkeep : ∀ {key : String} {w : Value}, key ≠ "seq" → item body (name key) = .ok w →
      item (withItem body (name "seq") (.int (last + 1))) (name key) = .ok w := fun hne hw =>
    item_withItem (by simpa using hne) hw
  have hheld : Dispatched L (last + 1) job (withItem body (name "seq") (.int (last + 1))) := {
    json := isJson_withItem hbody trivial (by decide)
    accepted := by rw [checkDispatch_withItem, hcheck]
    job := hkeep (by decide) hjobItem
    seq := ⟨last + 1, first, item_withItem_self, by omega, le_refl _, hkeep (by decide) hfirst,
      hfirst_le⟩ }
  have hmono := h.mono (show last ≤ last + 1 by omega)
  refine { hmono with
    dispatches := ?_
    attempts := ?_
    pending := ?_ }
  · intro job' body' hget
    rw [Dict.get?_set] at hget
    split at hget
    · next hkey =>
      cases hget
      exact hkey ▸ hheld
    · exact hmono.dispatches job' body' hget
  · intro id a hget
    rw [Dict.get?_set] at hget
    split at hget
    · next hid =>
      cases hget
      refine ⟨hid.symm, ?_, ?_⟩
      · exact {
          dispatched := hheld
          attempt := hkeep (by decide) hattemptItem
          run_number := hkeep (by decide) hrunItem
          ordinal := hkeep (by decide) hord
          spool := by rw [get_of_item hspool]; exact hkeep (by decide) hspool
          seq := item_withItem_self
          started_at := hkeep (by decide) hstartedItem
          env := hkeep (by decide) henvItem
          env_mapping := ⟨es, rfl⟩
          after := isJson_get hbody
          stop := fun _ hs => by cases hs
          outcome := fun _ hs => by cases hs }
      · exact ⟨_, Dict.get?_set_self⟩
    · obtain ⟨hid, ha, latest, hlatest⟩ := hmono.attempts id a hget
      refine ⟨hid, ha, ?_⟩
      by_cases hkey : a.job = job
      · exact ⟨_, by rw [hkey]; exact Dict.get?_set_self⟩
      · exact ⟨latest, by rw [Dict.get?_set_ne hkey]; exact hlatest⟩
  · intro n p hget
    refine hmono.pending n p ?_
    revert hget
    cases wireInt? (dictGet body (name "discharges")) with
    | none => exact id
    | some discharged =>
      intro hget
      rw [Dict.get?_erase] at hget
      split at hget
      · cases hget
      · exact hget

/-! ## Attempts that take a stop or an outcome -/

/-- The open attempts, over the latest dispatches. -/
def AttemptsSound (L : Library) (last : Int) (dispatches : Dict Str Value)
    (attempts : Dict Str OpenAttempt) : Prop :=
  ∀ id a, attempts.get? id = some a → a.attempt = id ∧ a.Sound L last ∧ Known dispatches a

section Attempts

variable {dispatches : Dict Str Value} {attempts attempts' : Dict Str OpenAttempt} {id : Str}
  {a : OpenAttempt}

theorem AttemptsSound.erase (h : AttemptsSound L last dispatches attempts) :
    AttemptsSound L last dispatches (attempts.erase id) := by
  intro id' a hget
  rw [Dict.get?_erase] at hget
  split at hget
  · cases hget
  · exact h id' a hget

theorem AttemptsSound.set (h : AttemptsSound L last dispatches attempts) (hid : a.attempt = id)
    (ha : a.Sound L last) (hknown : Known dispatches a) :
    AttemptsSound L last dispatches (attempts.set id a) := by
  intro id' b hget
  rw [Dict.get?_set] at hget
  split at hget
  · next hkey =>
    cases hget
    exact ⟨hid.trans hkey.symm, ha, hknown⟩
  · exact h id' b hget

/-- A stop is a scalar text. -/
theorem AttemptsSound.stop {s : Str} (h : AttemptsSound L last dispatches attempts)
    (hget : attempts.get? id = some a) (hs : isScalarString s = true) :
    AttemptsSound L last dispatches (attempts.set id { a with stop := some s }) := by
  obtain ⟨hid, ha, hknown⟩ := h id a hget
  refine h.set hid { ha with stop := ?_ } hknown
  intro s' hs'
  cases hs'
  exact hs

theorem stopAttempt_sound {draining : Bool} {stop : Str × Value}
    (h : AttemptsSound L last dispatches attempts) (hstop : stop.2.IsJson) :
    AttemptsSound L last dispatches (stopAttempt L draining attempts stop) := by
  rw [stopAttempt]
  cases hget : attempts.get? stop.1 with
  | none => exact h
  | some a =>
    dsimp only
    split
    · exact h.stop hget (isScalarString_pyStr hstop)
    · exact h

theorem foldl_stopAttempt_sound {draining : Bool} {stops : List (Str × Value)}
    (h : AttemptsSound L last dispatches attempts) (hstops : ∀ e ∈ stops, e.2.IsJson) :
    AttemptsSound L last dispatches (stops.foldl (stopAttempt L draining) attempts) := by
  induction stops generalizing attempts with
  | nil => exact h
  | cons stop stops ih =>
    exact ih (stopAttempt_sound h (hstops stop List.mem_cons_self))
      fun e he => hstops e (List.mem_cons_of_mem _ he)

theorem stopEntry_sound {entry : Value} (h : AttemptsSound L last dispatches attempts)
    (hentry : entry.IsJson) (ht : stopEntry L attempts entry = .ok attempts') :
    AttemptsSound L last dispatches attempts' := by
  obtain ⟨attempt, hattempt, ht⟩ := bind_eq_ok.mp ht
  dsimp only at ht
  cases hget : attempts.get? (pyStr L attempt) with
  | none =>
    rw [hget] at ht
    cases ht
    exact h
  | some a =>
    rw [hget] at ht
    dsimp only at ht
    by_cases hnone : a.stop = none
    · rw [if_pos hnone] at ht
      cases ht
      have hcause : isScalarString (if truthy (dictGet entry (name "cause")) then
          pyStr L (dictGet entry (name "cause")) else name "update_stop") = true := by
        split
        · exact isScalarString_pyStr (isJson_get hentry)
        · decide
      have hset := h.stop hget hcause
      rwa [← (h _ a hget).1] at hset
    · rw [if_neg hnone] at ht
      cases ht
      exact h

end Attempts

/-! ## The stops a record names -/

theorem isJson_pair {p : Value × Value} (h : v.IsJson) (hp : pair v = .ok p) : p.2.IsJson := by
  revert hp
  rw [pair.eq_def]
  split
  · next k w =>
    have hw : w.IsJson := isArray_iff.mp h w (by simp)
    split
    · exact fun h => by cases h
    · exact fun h => by cases h
    · intro hp
      cases hp
      exact hw
  · next c c' =>
    intro hp
    cases hp
    have hall : isScalarString [c, c'] = true := h
    rw [isScalarString, List.all_eq_true] at hall
    show isScalarString [c'] = true
    rw [isScalarString, List.all_eq_true]
    intro d hd
    exact hall d (List.mem_cons_of_mem _ hd)
  · next k w k' w' =>
    intro hp
    cases hp
    exact (Value.isObject_iff.mp h.2 (k', w') (by simp)).1
  · exact fun h => by cases h
  · exact fun h => by cases h
  · exact fun h => by cases h
  · exact fun h => by cases h

theorem mem_setPair {p q : Value × Value} : ∀ {ps : List (Value × Value)}, q ∈ setPair p ps →
    q.2 = p.2 ∨ ∃ q' ∈ ps, q.2 = q'.2
  | [], h => Or.inl (congrArg Prod.snd (List.mem_singleton.mp h))
  | e :: ps, h => by
    rw [setPair] at h
    split at h
    · rcases List.mem_cons.mp h with rfl | h
      · exact Or.inl rfl
      · exact Or.inr ⟨q, List.mem_cons_of_mem _ h, rfl⟩
    · rcases List.mem_cons.mp h with rfl | h
      · exact Or.inr ⟨q, List.mem_cons_self, rfl⟩
      · exact (mem_setPair h).imp_right fun ⟨q', hq', hq⟩ => ⟨q', List.mem_cons_of_mem _ hq', hq⟩

theorem isJson_setPairs {pairs held : List (Value × Value)} (hpairs : ∀ p ∈ pairs, p.2.IsJson)
    (hheld : ∀ p ∈ held, p.2.IsJson) :
    ∀ p ∈ pairs.foldl (fun held p => setPair p held) held, p.2.IsJson := by
  induction pairs generalizing held with
  | nil => exact hheld
  | cons p pairs ih =>
    refine ih (fun q hq => hpairs q (List.mem_cons_of_mem _ hq)) fun q hq => ?_
    rcases mem_setPair hq with hq | ⟨q', hq', hq⟩
    · exact hq ▸ hpairs p List.mem_cons_self
    · exact hq ▸ hheld q' hq'

theorem isJson_dictItems {ps : List (Value × Value)} (h : v.IsJson) (hps : dictItems v = .ok ps) :
    ∀ p ∈ ps, p.2.IsJson := by
  revert hps
  rw [dictItems.eq_def]
  split
  · next entries =>
    intro hps p hp
    cases hps
    obtain ⟨e, he, rfl⟩ := List.mem_map.mp hp
    exact (Value.isObject_iff.mp h.2 e he).2
  · next vs =>
    intro hps
    obtain ⟨pairs, hpairs, hps⟩ := bind_eq_ok.mp hps
    cases hps
    refine isJson_setPairs (fun p hp => ?_) fun _ hp => nomatch hp
    obtain ⟨w, hw, hwp⟩ := mem_of_mapM hpairs hp
    exact isJson_pair (isArray_iff.mp h w hw) hwp
  · intro hps
    cases hps
    exact fun _ hp => nomatch hp
  · exact (nomatch ·)
  · exact (nomatch ·)

theorem isJson_setIns {es held : List (Str × Value)} (hes : ∀ e ∈ es, e.2.IsJson)
    (hheld : ∀ e ∈ held, e.2.IsJson) :
    ∀ e ∈ es.foldl (fun held e => Dict.setIn e.1 e.2 held) held, e.2.IsJson := by
  induction es generalizing held with
  | nil => exact hheld
  | cons e es ih =>
    refine ih (fun e' he' => hes e' (List.mem_cons_of_mem _ he')) fun e' he' => ?_
    rcases mem_setIn he' with rfl | he'
    · exact hes e List.mem_cons_self
    · exact hheld e' he'

theorem isJson_namedStops {stops : List (Str × Value)} (h : body.IsJson)
    (hstops : namedStops L body = .ok stops) : ∀ e ∈ stops, e.2.IsJson := by
  obtain ⟨ps, hps, hstops⟩ := bind_eq_ok.mp hstops
  cases hstops
  have hjson := isJson_dictItems (isJson_orEmpty (isJson_get h)) hps
  refine isJson_setIns (fun e he => ?_) fun _ he => by cases he
  obtain ⟨p, hp, rfl⟩ := List.mem_map.mp he
  exact hjson p (List.mem_of_mem_filter hp)

/-! ## The other records -/

theorem outcomeEnd_scalar {ended : Option Str} (h : body.IsJson) (hend : outcomeEnd L body = .ok ended) :
    ∀ s ∈ ended, isScalarString s = true := by
  obtain ⟨stamp, -, hend⟩ := bind_eq_ok.mp hend
  intro s hs
  rw [Option.mem_def] at hs
  subst hs
  split at hend
  · split at hend
    · cases hend
    · next instant _ =>
      split at hend
      · cases hend
      · cases hend
        exact L.scalar_isoformat _
  · dsimp only at hend
    split at hend
    · next text _ hat =>
      cases hend
      have hjson : (dictGet body (name "at")).IsJson := isJson_get h
      rw [hat] at hjson
      exact hjson
    · cases hend

theorem noteOutcome_sound (h : t.Sound L last) (hbody : body.IsJson)
    (ht : t.noteOutcome L body = .ok t') : t'.Sound L last := by
  obtain ⟨attempt, hattempt, ht⟩ := bind_eq_ok.mp ht
  obtain ⟨ended, hended, ht⟩ := bind_eq_ok.mp ht
  cases ht
  have hattempts : AttemptsSound L last t.dispatches t.attempts := h.attempts
  refine { h with
    attempts := ?_
    ended := ?_ }
  · show AttemptsSound L last t.dispatches _
    dsimp only
    split
    · next held _ hget =>
      obtain ⟨hid, ha, hknown⟩ := h.attempts _ held hget
      refine hattempts.set hid { ha with outcome := ?_ } hknown
      intro s hs
      cases hs
      exact isScalarString_pyStr (isJson_get hbody)
    · exact hattempts.erase
  · intro e he
    cases he
    exact outcomeEnd_scalar hbody hended

theorem noteStops_sound (h : t.Sound L last) (hbody : body.IsJson)
    (ht : t.noteStops L body = .ok t') : t'.Sound L last := by
  obtain ⟨stops, hstops, ht⟩ := bind_eq_ok.mp ht
  have hjson := isJson_namedStops hbody hstops
  have hattempts : AttemptsSound L last t.dispatches t.attempts := h.attempts
  by_cases hdraining : isEvent body "draining" = true
  · rw [if_pos hdraining] at ht
    obtain ⟨unsettled, hunsettled, ht⟩ := bind_eq_ok.mp ht
    cases ht
    refine { h with attempts := foldl_stopAttempt_sound hattempts fun e he => ?_ }
    obtain ⟨id, -, rfl⟩ := List.mem_map.mp he
    show ((Dict.getIn id stops).getD (.str (name "engine_stop"))).IsJson
    cases hget : Dict.getIn id stops with
    | none => exact (by decide : isScalarString (name "engine_stop") = true)
    | some cause => exact hjson _ (mem_of_getIn hget)
  · rw [if_neg hdraining] at ht
    cases ht
    exact { h with attempts := foldl_stopAttempt_sound hattempts hjson }

theorem notePending_sound (h : t.Sound L last) (hbody : body.IsJson)
    (ht : t.notePending L seq body = .ok t') : t'.Sound L last := by
  rw [notePending] at ht
  split at ht
  · obtain ⟨job, hjob, ht⟩ := bind_eq_ok.mp ht
    obtain ⟨runValue, -, ht⟩ := bind_eq_ok.mp ht
    obtain ⟨run_number, -, ht⟩ := bind_eq_ok.mp ht
    obtain ⟨scheduled, hscheduled, ht⟩ := bind_eq_ok.mp ht
    cases ht
    refine { h with pending := ?_ }
    intro n p hget
    rw [Dict.get?_set] at hget
    split at hget
    · next hn =>
      cases hget
      exact ⟨hn.symm, isScalarString_pyStr (isJson_item hbody hjob),
        isScalarString_pyStr (isJson_item hbody hscheduled)⟩
    · exact h.pending n p hget
  · obtain ⟨pendingValue, -, ht⟩ := bind_eq_ok.mp ht
    obtain ⟨discharged, -, ht⟩ := bind_eq_ok.mp ht
    cases ht
    refine { h with pending := ?_ }
    intro n p hget
    rw [Dict.get?_erase] at hget
    split at hget
    · cases hget
    · exact h.pending n p hget

/-- The plans, one of them set or erased. -/
def PlansSound (plans : Dict Str OpenPlan) : Prop :=
  ∀ id p, plans.get? id = some p → p.attempt = id ∧ p.Sound

theorem PlansSound.set {plans : Dict Str OpenPlan} {id : Str} {p : OpenPlan} (h : PlansSound plans)
    (hid : p.attempt = id) (hp : p.Sound) : PlansSound (plans.set id p) := by
  intro id' q hget
  rw [Dict.get?_set] at hget
  split at hget
  · next hkey =>
    cases hget
    exact ⟨hid.trans hkey.symm, hp⟩
  · exact h id' q hget

theorem PlansSound.erase {plans : Dict Str OpenPlan} {id : Str} (h : PlansSound plans) :
    PlansSound (plans.erase id) := by
  intro id' q hget
  rw [Dict.get?_erase] at hget
  split at hget
  · cases hget
  · exact h id' q hget

theorem pyDict_eq_ok : pyDict v = .ok w ↔ v = w ∧ ∃ es, v = .mapping es := by
  cases v with
  | mapping es =>
    constructor
    · intro h
      cases h
      exact ⟨rfl, es, rfl⟩
    · rintro ⟨rfl, -⟩
      rfl
  | _ => exact ⟨(nomatch ·), fun h => nomatch h.2⟩

theorem mapM_pyDict {vs ws : List Value} (h : vs.mapM pyDict = .ok ws) :
    vs = ws ∧ ∀ w ∈ ws, ∃ es, w = .mapping es := by
  have hpairs := mapM_inv h
  clear h
  induction hpairs with
  | nil => exact ⟨rfl, fun _ hw => nomatch hw⟩
  | cons hv _ ih =>
    obtain ⟨rfl, es, rfl⟩ := pyDict_eq_ok.mp hv
    obtain ⟨rfl, hall⟩ := ih
    refine ⟨rfl, fun w hw => ?_⟩
    rcases List.mem_cons.mp hw with rfl | hw
    · exact ⟨es, rfl⟩
    · exact hall w hw

/-- The steps a plan is kept with are the ones its record was checked for. -/
theorem checkSteps_elements {values : List Value}
    (hcheck : checkSteps ((Dict.getIn (name "steps") (items body)).getD (.list [])) = .ok ())
    (hvalues : elements (orNothing (dictGet body (name "steps"))) = .ok values) :
    checkSteps (.list values) = .ok () := by
  rw [dictGet] at hvalues
  cases hitem : Dict.getIn (name "steps") (items body) with
  | none =>
    rw [hitem] at hvalues
    cases hvalues
    rfl
  | some steps =>
    rw [hitem, Option.getD_some] at hcheck hvalues
    obtain ⟨held, hheld, hcheck⟩ := bind_eq_ok.mp hcheck
    rw [orNothing] at hvalues
    split at hvalues
    · rw [hheld] at hvalues
      cases hvalues
      exact hcheck
    · cases hvalues
      rfl

theorem notePlan_sound {attempt : Str} (h : t.Sound L last) (hbody : body.IsJson)
    (hattempt : isScalarString attempt = true)
    (hcheck : checkSteps ((Dict.getIn (name "steps") (items body)).getD (.list [])) = .ok ())
    (ht : t.notePlan L seq attempt body = .ok t') : t'.Sound L last := by
  obtain ⟨values, hvalues, ht⟩ := bind_eq_ok.mp ht
  obtain ⟨steps, hsteps, ht⟩ := bind_eq_ok.mp ht
  obtain ⟨rfl, hmappings⟩ := mapM_pyDict hsteps
  split at ht
  · cases ht
    exact h
  · obtain ⟨job, hjob, ht⟩ := bind_eq_ok.mp ht
    obtain ⟨runValue, -, ht⟩ := bind_eq_ok.mp ht
    obtain ⟨run_number, -, ht⟩ := bind_eq_ok.mp ht
    obtain ⟨plan, hplan, ht⟩ := bind_eq_ok.mp ht
    cases ht
    have hjson := isJson_elements (isJson_orNothing (isJson_get hbody)) hvalues
    have hplans : PlansSound t.plans := h.plans
    refine { h with plans := hplans.set rfl ?_ }
    exact {
      attempt := hattempt
      job := isScalarString_pyStr (isJson_item hbody hjob)
      plan := isScalarString_pyStr (isJson_item hbody hplan)
      steps := fun step hstep => ⟨hjson step hstep, hmappings step hstep⟩
      checked := checkSteps_elements hcheck hvalues
      done := fun _ _ hget => nomatch hget
      ended := by
        intro s hs
        obtain ⟨e, he, hes⟩ := Option.bind_eq_some_iff.mp hs
        split at hes
        · exact h.ended e he s hes
        · cases hes }

theorem noteFollowUp_sound (h : t.Sound L last) (hbody : body.IsJson)
    (hcheck : isEvent body "plan" = true →
      checkSteps ((Dict.getIn (name "steps") (items body)).getD (.list [])) = .ok ())
    (ht : t.noteFollowUp L seq body = .ok t') : t'.Sound L last := by
  have hattempts : AttemptsSound L last t.dispatches t.attempts := h.attempts
  have hplans : PlansSound t.plans := h.plans
  obtain ⟨attempt, hattempt, ht⟩ := bind_eq_ok.mp ht
  split at ht
  · cases ht
    exact { h with attempts := hattempts.erase }
  · split at ht
    · next hplan =>
      exact notePlan_sound h hbody (isScalarString_pyStr (isJson_item hbody hattempt)) (hcheck hplan) ht
    · dsimp only at ht
      cases hget : t.plans.get? (pyStr L attempt) with
      | none =>
        rw [hget] at ht
        cases ht
        exact h
      | some plan =>
        rw [hget] at ht
        obtain ⟨discharged, hdischarged, ht⟩ := bind_eq_ok.mp ht
        obtain ⟨stepValue, -, ht⟩ := bind_eq_ok.mp ht
        obtain ⟨step, -, ht⟩ := bind_eq_ok.mp ht
        cases ht
        obtain ⟨hid, hplan⟩ := h.plans _ plan hget
        have hdone : OpenPlan.Sound { plan with done := plan.done.set step discharged } :=
          { hplan with
            done := by
              intro i v hv
              rw [Dict.get?_set] at hv
              split at hv
              · cases hv
                exact isJson_item hbody hdischarged
              · exact hplan.done i v hv }
        refine { h with plans := ?_ }
        show PlansSound (if _ then _ else _)
        split
        · exact hplans.erase
        · exact hplans.set hid hdone

theorem stopEntries_sound {dispatches : Dict Str Value} :
    ∀ {entries : List Value} {attempts held : Dict Str OpenAttempt},
      AttemptsSound L last dispatches attempts → (∀ e ∈ entries, e.IsJson) →
      entries.foldlM (stopEntry L) attempts = .ok held → AttemptsSound L last dispatches held
  | [], attempts, held, h, _, ht => by
    cases ht
    exact h
  | entry :: entries, attempts, held, h, hjson, ht => by
    rw [List.foldlM_cons] at ht
    obtain ⟨next, hnext, ht⟩ := bind_eq_ok.mp ht
    exact stopEntries_sound (stopEntry_sound h (hjson entry List.mem_cons_self) hnext)
      (fun e he => hjson e (List.mem_cons_of_mem _ he)) ht

theorem noteConfig_sound (h : t.Sound L last) (hbody : body.IsJson)
    (ht : t.noteConfig L seq body = .ok t') : t'.Sound L last := by
  rw [noteConfig] at ht
  split at ht
  · obtain ⟨stops, hstops, ht⟩ := bind_eq_ok.mp ht
    obtain ⟨attempts, hattempts, ht⟩ := bind_eq_ok.mp ht
    cases ht
    have hjson := isJson_elements (isJson_orNothing (isJson_get hbody)) hstops
    refine { h with
      attempts := stopEntries_sound h.attempts hjson hattempts
      update := ?_ }
    intro u hu
    cases hu
    exact ⟨isJson_withItem hbody trivial (by decide), _, rfl⟩
  · split at ht
    · split at ht
      · cases ht
        exact { h with update := fun _ hu => by cases hu }
      · cases ht
        exact h
    · cases ht
      exact h

theorem checkWhen_ok {cond : Bool} {check : Except Error Unit} (h : checkWhen cond check = .ok ())
    (hcond : cond = true) : check = .ok () := by rwa [hcond] at h

/-- **What one record leaves.** -/
theorem note_sound (h : t.Sound L last) (hlast : 0 ≤ last) (hbody : record.payload.IsJson)
    (ht : t.note L (last + 1) record = .ok t') : t'.Sound L (last + 1) := by
  obtain ⟨⟨⟩, hcheck, ht⟩ := bind_eq_ok.mp ht
  obtain ⟨⟨⟩, hdispatch, hcheck⟩ := bind_eq_ok.mp hcheck
  obtain ⟨⟨⟩, hsteps, -⟩ := bind_eq_ok.mp hcheck
  have hmono := h.mono (show last ≤ last + 1 by omega)
  dsimp only at ht
  split at ht
  · next hkind =>
    exact noteDispatch_sound h hlast hbody (checkWhen_ok hdispatch (decide_eq_true hkind)) ht
  · split at ht
    · exact noteOutcome_sound hmono hbody ht
    · split at ht
      · exact noteStops_sound hmono hbody ht
      · split at ht
        · exact notePending_sound hmono hbody ht
        · split at ht
          · next hfollow =>
            refine noteFollowUp_sound hmono hbody (fun hplan => ?_) ht
            exact checkWhen_ok hsteps (by rw [hplan, decide_eq_true hfollow, Bool.and_self])
          · split at ht
            · exact noteConfig_sound hmono hbody ht
            · cases ht
              exact hmono

/-- Where the attempt is of the run its job dispatched last, it has the first seq of that run. -/
def Retained (dispatches : Dict Str Value) (a : OpenAttempt) : Prop :=
  ∀ body, dispatches.get? a.job = some body →
    item body (name "run_number") = .ok (.int a.run_number) →
    item body (name "first_dispatch_seq") = item a.dispatch (name "first_dispatch_seq")

def Retains (t : OpenTable) : Prop := ∀ id a, t.attempts.get? id = some a → Retained t.dispatches a

end OpenTable

end Dsl41.Runner
