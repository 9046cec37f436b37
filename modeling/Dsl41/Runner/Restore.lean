import Dsl41.Runner.TableSound

/-!
# A payload read back

The payload of a sound table is a JSON value, and what is read back of its canonical bytes is a
table that holds the same.
-/

namespace Dsl41.Runner

open Infra Infra.Json Canon

variable {L : Library} {v w : Value} {last : Int}

/-! ## Mappings with named fields -/

/-- The field of a name, read back. -/
theorem item_named {fields : List (String × Value)} (hjson : (named fields).IsJson) (key : String)
    (hv : Dict.getIn key fields = some v) : item (named fields).sorted (name key) = .ok v.sorted := by
  refine item_sorted hjson (item_ok_iff.mpr ?_)
  clear hjson
  induction fields with
  | nil => cases hv
  | cons f fields ih =>
    rw [Dict.getIn] at hv
    rw [named, items, List.map_cons, Dict.getIn]
    simp only [name_inj]
    split at hv
    · next hkey =>
      rw [if_pos hkey]
      exact hv
    · next hkey =>
      rw [if_neg hkey]
      exact ih hv

mutual

theorem equalSorted_refl : ∀ v : Value, equalSorted v v = true
  | .none => by rw [equalSorted]
  | .bool b => by simp [equalSorted, number?]
  | .int i => by simp [equalSorted, number?]
  | .float f t => by simp [equalSorted]
  | .str s => by simp [equalSorted]
  | .datetime d => by simp [equalSorted]
  | .other t => by simp [equalSorted]
  | .mapping es => by
    rw [equalSorted]
    exact equalEntries_refl es
  | .list vs => by
    rw [equalSorted]
    exact equalItems_refl vs

theorem equalEntries_refl : ∀ es : List (Str × Value), equalEntries es es = true
  | [] => by rw [equalEntries]
  | (key, v) :: es => by
    rw [equalEntries, equalSorted_refl v, equalEntries_refl es]
    simp

theorem equalItems_refl : ∀ vs : List Value, equalItems vs vs = true
  | [] => by rw [equalItems]
  | v :: vs => by rw [equalItems, equalSorted_refl v, equalItems_refl vs, Bool.and_self]

end

theorem equal_of_sorted (h : v.sorted = w.sorted) : equal v w = true := by
  rw [equal, h]
  exact equalSorted_refl w.sorted

theorem isJson_strOrNone {s : Option Str} (h : ∀ t ∈ s, isScalarString t = true) :
    (strOrNone s).IsJson := by
  cases s with
  | none => trivial
  | some t => exact h t rfl

@[simp] theorem sorted_strOrNone (s : Option Str) : (strOrNone s).sorted = strOrNone s := by
  cases s <;> rfl

theorem optionalString_item {body : Value} {key : String} {s : Option Str}
    (h : item body (name key) = .ok (strOrNone s)) : optionalString body key = .ok s := by
  rw [optionalString, get_of_item h]
  cases s <;> rfl

theorem stringItem_ok {body : Value} {key : String} {s : Str}
    (h : item body (name key) = .ok (.str s)) : stringItem body key = .ok s := by
  rw [stringItem, h]
  rfl

theorem intItem_ok {body : Value} {key : Str} {i : Int} (h : item body key = .ok (.int i)) :
    intItem body key = .ok i := by
  rw [intItem, h]
  rfl

theorem mapping_of_item {body : Value} {key : Str} (h : item body key = .ok v) :
    ∃ es, body = .mapping es := by
  cases body with
  | mapping es => exact ⟨es, rfl⟩
  | _ => cases h

theorem pyDict_sorted {es : List (Str × Value)} (h : v = .mapping es) :
    pyDict v.sorted = .ok v.sorted := by
  subst h
  rfl

/-! ## One entry of each kind -/

def OpenAttempt.fields (a : OpenAttempt) : List (String × Value) :=
  [("attempt", .str a.attempt), ("job", .str a.job), ("run_number", .int a.run_number),
    ("ordinal", .int a.ordinal), ("spool", a.spool), ("seq", .int a.seq),
    ("started_at", .str a.started_at), ("env", a.env), ("after", a.after),
    ("stop", strOrNone a.stop), ("closing", .bool a.closing), ("outcome", strOrNone a.outcome),
    ("dispatch", a.dispatch)]

theorem OpenAttempt.toPayload_eq (a : OpenAttempt) : a.toPayload = named a.fields := rfl

theorem OpenAttempt.Sound.isJson {a : OpenAttempt} (h : a.Sound L last) : a.toPayload.IsJson := by
  have hitem : ∀ {key : Str} {v : Value}, item a.dispatch key = .ok v → v.IsJson :=
    isJson_item h.dispatched.json
  rw [a.toPayload_eq]
  refine isJson_named (by simp [OpenAttempt.fields]) ?_
  simp only [OpenAttempt.fields, List.forall_mem_cons]
  exact ⟨hitem h.attempt, hitem h.dispatched.job, trivial, trivial, hitem h.spool, trivial,
    hitem h.started_at, hitem h.env, h.after, isJson_strOrNone h.stop, trivial,
    isJson_strOrNone h.outcome, h.dispatched.json, fun _ hf => nomatch hf⟩

theorem OpenAttempt.Sound.item {a : OpenAttempt} (h : a.Sound L last) (key : String)
    (hv : Dict.getIn key a.fields = some v) :
    Runner.item a.toPayload.sorted (name key) = .ok v.sorted := by
  have hjson := h.isJson
  rw [a.toPayload_eq] at hjson ⊢
  exact item_named hjson key hv

def PendingDispatch.fields (p : PendingDispatch) : List (String × Value) :=
  [("seq", .int p.seq), ("job", .str p.job), ("run_number", .int p.run_number),
    ("scheduled_at", .str p.scheduled_at)]

theorem PendingDispatch.toPayload_eq (p : PendingDispatch) : p.toPayload = named p.fields := rfl

theorem PendingDispatch.Sound.isJson {p : PendingDispatch} (h : p.Sound) : p.toPayload.IsJson := by
  rw [p.toPayload_eq]
  refine isJson_named (by simp [PendingDispatch.fields]) ?_
  simp only [PendingDispatch.fields, List.forall_mem_cons]
  exact ⟨trivial, h.job, trivial, h.scheduled_at, fun _ hf => nomatch hf⟩

theorem PendingDispatch.Sound.item {p : PendingDispatch} (h : p.Sound) (key : String)
    (hv : Dict.getIn key p.fields = some v) :
    Runner.item p.toPayload.sorted (name key) = .ok v.sorted := by
  have hjson := h.isJson
  rw [p.toPayload_eq] at hjson ⊢
  exact item_named hjson key hv

/-- The done marks in step order. -/
def OpenPlan.marks (p : OpenPlan) : List (Int × Value) :=
  p.done.entries.insertionSort fun e e' => e.1 ≤ e'.1

def mark (e : Int × Value) : Value := .list [.int e.1, e.2]

def OpenPlan.fields (p : OpenPlan) : List (String × Value) :=
  [("seq", .int p.seq), ("attempt", .str p.attempt), ("job", .str p.job),
    ("run_number", .int p.run_number), ("plan", .str p.plan), ("steps", .list p.steps),
    ("done", .list (p.marks.map mark)), ("ended", strOrNone p.ended)]

theorem OpenPlan.toPayload_eq (p : OpenPlan) : p.toPayload = named p.fields := rfl

theorem OpenPlan.mem_marks {p : OpenPlan} {e : Int × Value} : e ∈ p.marks ↔ e ∈ p.done.entries :=
  (List.perm_insertionSort _ _).mem_iff

theorem OpenPlan.Sound.isJson {p : OpenPlan} (h : p.Sound) : p.toPayload.IsJson := by
  rw [p.toPayload_eq]
  refine isJson_named (by simp [OpenPlan.fields]) ?_
  simp only [OpenPlan.fields, List.forall_mem_cons]
  refine ⟨trivial, h.attempt, h.job, trivial, h.plan, ?_, ?_, isJson_strOrNone h.ended,
    fun _ hf => nomatch hf⟩
  · exact isArray_iff.mpr fun step hstep => (h.steps step hstep).1
  · refine isArray_iff.mpr fun w hw => ?_
    obtain ⟨e, he, rfl⟩ := List.mem_map.mp hw
    have hget := Dict.get?_eq_some.mpr (OpenPlan.mem_marks.mp he)
    exact ⟨trivial, h.done e.1 e.2 hget, trivial⟩

theorem OpenPlan.Sound.item {p : OpenPlan} (h : p.Sound) (key : String)
    (hv : Dict.getIn key p.fields = some v) :
    Runner.item p.toPayload.sorted (name key) = .ok v.sorted := by
  have hjson := h.isJson
  rw [p.toPayload_eq] at hjson ⊢
  exact item_named hjson key hv

namespace OpenTable

/-- A field of the attempt is the dispatch's. -/
theorem sameField_ok {a body x y : Value} {key : Str} (hx : item a key = .ok x)
    (hy : item body key = .ok y) (hxy : x.sorted = y.sorted) : sameField a body key = .ok true := by
  rw [sameField, hx, hy]
  exact congrArg Except.ok (equal_of_sorted hxy)

/-- A dispatch the table keeps takes its place again. -/
theorem place_again {body : Value} {job : Str} {seq : Int} (h : Dispatched L last job body)
    (hseq : item body (name "seq") = .ok (.int seq)) :
    checkDispatchSeq body.sorted seq none true = .ok () := by
  obtain ⟨seq', first, hseq', -, -, hfirst, hle⟩ := h.seq
  obtain ⟨ordinal, hordinal⟩ := (accepted_of_checkDispatch h.accepted).ordinal
  rw [hseq] at hseq'
  cases hseq'
  have hno : ¬first > seq := by omega
  simp only [checkDispatchSeq, intItem_ok (item_sorted h.json hfirst),
    intItem_ok (item_sorted h.json hordinal), sameRun, checkReplacement, bind, Except.bind,
    Bool.not_true, Bool.false_and, Bool.or_false, hno, decide_false]
  rfl

section Attempt

variable {dispatches latest : Dict Str Value} {held : Dict Str OpenAttempt} {a : OpenAttempt}

/-- The check of the first seq passes where the attempt has the retained one, and only there. -/
theorem checkRetained_eq {v : Value} (h : a.Sound L last) (hknown : Known latest a)
    (hdispatched : ∀ job body, latest.get? job = some body → Dispatched L last job body)
    (hrel : Dict.Rel SameValue dispatches latest)
    (hrun : item v (name "run_number") = .ok (.int a.run_number)) :
    (Retained latest a → checkRetained dispatches a.job v a.dispatch.sorted = .ok ()) ∧
    (¬Retained latest a → ∃ e, checkRetained dispatches a.job v a.dispatch.sorted = .error e) := by
  obtain ⟨body, hbody⟩ := hknown
  have hlatest := hdispatched a.job body hbody
  obtain ⟨-, first, -, -, -, hfirst, -⟩ := h.dispatched.seq
  obtain ⟨-, firstBody, -, -, -, hfirstBody, -⟩ := hlatest.seq
  obtain ⟨run, hrunBody⟩ := (accepted_of_checkDispatch hlatest.accepted).run_number
  have hretained : Retained latest a ↔ (run = a.run_number → firstBody = first) := by
    constructor
    · intro hretained hrun_eq
      have hsame := hretained body hbody (hrun_eq ▸ hrunBody)
      rw [hfirst, hfirstBody] at hsame
      cases hsame
      rfl
    · intro hfirsts body' hbody' hrun'
      rw [hbody] at hbody'
      cases hbody'
      rw [hrunBody] at hrun'
      cases hrun'
      rw [hfirst, hfirstBody, hfirsts rfl]
  cases hheld : dispatches.get? a.job with
  | none =>
    rw [hrel.none hheld] at hbody
    cases hbody
  | some heldBody =>
    obtain ⟨body', hbody', hvw⟩ := hrel.some hheld
    rw [hbody] at hbody'
    cases hbody'
    obtain ⟨runHeld, hrunHeld, hrunSame⟩ := hvw.symm.item hrunBody
    obtain ⟨firstHeld, hfirstHeld, hfirstSame⟩ := hvw.symm.item hfirstBody
    have hcheck : checkRetained dispatches a.job v a.dispatch.sorted =
        if equal (.int run) (.int a.run_number) && !equal (.int firstBody) (Value.int first).sorted then
          .error (.valueError "snapshot attempt disagrees with retained S".toList)
        else .ok () := by
      simp only [checkRetained, hheld, hrunHeld, hfirstHeld, hrun,
        item_sorted h.dispatched.json hfirst, bind, Except.bind, ← hrunSame.equal_left,
        ← hfirstSame.equal_left]
      rfl
    have hcond : (equal (.int run) (.int a.run_number) &&
        !equal (.int firstBody) (Value.int first).sorted) = true ↔ ¬Retained latest a := by
      have hsorted : (Value.int first).sorted = .int first := rfl
      rw [hsorted, hretained, Bool.and_eq_true, equal_int, Bool.not_eq_true', ← Bool.not_eq_true,
        equal_int]
      exact Classical.not_imp.symm
    rw [hcheck]
    constructor
    · intro hyes
      rw [if_neg (fun hno => hcond.mp hno hyes)]
    · intro hno
      exact ⟨_, if_pos (hcond.mpr hno)⟩

/-- What is read of an attempt's payload before its first seq is checked. -/
theorem restoreAttempt_eq (h : a.Sound L last) :
    restoreAttempt L dispatches held a.toPayload.sorted = (do
      checkRetained dispatches a.job a.toPayload.sorted a.dispatch.sorted
      return held.set a.attempt a.sorted) := by
  have hdispatch := h.dispatched
  -- the fields as they are read back
  have hbody := h.item "dispatch" rfl
  have hattempt := h.item "attempt" rfl
  have hjob := h.item "job" rfl
  have hrun := h.item "run_number" rfl
  have hordinal := h.item "ordinal" rfl
  have hspool := h.item "spool" rfl
  have hseq := h.item "seq" rfl
  have hstarted := h.item "started_at" rfl
  have henv := h.item "env" rfl
  have hafter := h.item "after" rfl
  have hstop : item a.toPayload.sorted (name "stop") = .ok (strOrNone a.stop) := by
    rw [h.item "stop" rfl, sorted_strOrNone]
  have hclosing := h.item "closing" rfl
  have houtcome : item a.toPayload.sorted (name "outcome") = .ok (strOrNone a.outcome) := by
    rw [h.item "outcome" rfl, sorted_strOrNone]
  have hread : ∀ {key : Str} {v : Value}, item a.dispatch key = .ok v →
      item a.dispatch.sorted key = .ok v.sorted := item_sorted hdispatch.json
  have hcheck : checkDispatch L a.dispatch.sorted = .ok () := by
    rw [checkDispatch_sorted L hdispatch.json, hdispatch.accepted]
  have hsame : DISPATCH_FIELDS.mapM (sameField a.toPayload.sorted a.dispatch.sorted) =
      .ok (DISPATCH_FIELDS.map fun _ => true) := by
    refine mapM_eq_map ?_
    simp only [DISPATCH_FIELDS, List.map_cons, List.map_nil, List.forall_mem_cons]
    exact ⟨sameField_ok hattempt (hread h.attempt) rfl, sameField_ok hjob (hread hdispatch.job) rfl,
      sameField_ok hrun (hread h.run_number) rfl, sameField_ok hordinal (hread h.ordinal) rfl,
      sameField_ok hspool (hread h.spool) rfl, sameField_ok hseq (hread h.seq) rfl,
      sameField_ok hstarted (hread h.started_at) rfl, sameField_ok henv (hread h.env) rfl,
      fun _ hf => nomatch hf⟩
  obtain ⟨es, hes⟩ := h.env_mapping
  obtain ⟨fs, hfs⟩ := mapping_of_item h.seq
  simp only [restoreAttempt, hbody, hcheck, intItem_ok hseq, place_again hdispatch h.seq, hsame,
    stringItem_ok hjob, stringItem_ok hattempt, intItem_ok hrun, intItem_ok hordinal, hspool,
    stringItem_ok hstarted, henv, bind, Except.bind, pyDict_sorted hes, pyDict_sorted hfs,
    optionalString_item hstop, optionalString_item houtcome, get_of_item hafter, get_of_item hclosing]
  rfl

end Attempt

theorem restorePending_ok {held : Dict Int PendingDispatch} {p : PendingDispatch} (h : p.Sound) :
    restorePending held p.toPayload.sorted = .ok (held.set p.seq p) := by
  have hseq := h.item "seq" rfl
  have hjob := h.item "job" rfl
  have hrun := h.item "run_number" rfl
  have hscheduled := h.item "scheduled_at" rfl
  simp only [restorePending, intItem_ok hseq, stringItem_ok hjob, intItem_ok hrun,
    stringItem_ok hscheduled, bind, Except.bind]
  rfl

theorem restoreDone_ok {held : Dict Int Value} (e : Int × Value) :
    restoreDone L held (mark e).sorted = .ok (held.set e.1 e.2.sorted) := rfl

/-- A plan as it is read back. -/
def sortedPlan (p : OpenPlan) : OpenPlan :=
  { p with
    steps := p.steps.map Value.sorted
    done := Dict.setAll Prod.fst (fun e => e.2.sorted) p.marks ∅ }

theorem sortedPlan_same {p : OpenPlan} (h : p.Sound) : (sortedPlan p).Same p where
  seq := rfl
  attempt := rfl
  job := rfl
  run_number := rfl
  plan := rfl
  steps := by
    show (p.steps.map Value.sorted).map Value.sorted = p.steps.map Value.sorted
    rw [List.map_map]
    exact List.map_congr_left fun step hstep => sorted_sorted (h.steps step hstep).1
  done := by
    have hkeys : (p.marks.map Prod.fst).Nodup :=
      ((List.perm_insertionSort _ p.done.entries).map Prod.fst).nodup_iff.mpr p.done.nodup
    refine Dict.rel_setAll hkeys (fun e he => ?_) fun i v hget => ?_
    · have hget := Dict.get?_eq_some.mpr (OpenPlan.mem_marks.mp he)
      have hjson := h.done e.1 e.2 hget
      exact ⟨e.2, hget, Value.isJson_sorted _ hjson, hjson, sorted_sorted hjson⟩
    · exact List.mem_map.mpr ⟨(i, v), OpenPlan.mem_marks.mpr (Dict.get?_eq_some.mp hget), rfl⟩
  ended := rfl

theorem restorePlan_ok {held : Dict Str OpenPlan} {p : OpenPlan} (h : p.Sound) :
    restorePlan L held p.toPayload.sorted = .ok (held.set p.attempt (sortedPlan p)) := by
  have hseq := h.item "seq" rfl
  have hattempt := h.item "attempt" rfl
  have hjob := h.item "job" rfl
  have hrun := h.item "run_number" rfl
  have hplan := h.item "plan" rfl
  have hsteps : item p.toPayload.sorted (name "steps") = .ok (.list (p.steps.map Value.sorted)) := by
    rw [h.item "steps" rfl, Value.sorted, Value.sortedArray_eq]
  have hdone : item p.toPayload.sorted (name "done") =
      .ok (.list ((p.marks.map mark).map Value.sorted)) := by
    rw [h.item "done" rfl, Value.sorted, Value.sortedArray_eq]
  have hended : item p.toPayload.sorted (name "ended") = .ok (strOrNone p.ended) := by
    rw [h.item "ended" rfl, sorted_strOrNone]
  have hchecked : checkSteps (.list (p.steps.map Value.sorted)) = .ok () := by
    rw [checkSteps_sorted fun step hstep => (h.steps step hstep).1, h.checked]
  have hdicts : (p.steps.map Value.sorted).mapM pyDict = .ok (p.steps.map Value.sorted) := by
    rw [List.mapM_map]
    refine mapM_eq_map fun step hstep => ?_
    obtain ⟨-, es, hes⟩ := h.steps step hstep
    exact pyDict_sorted hes
  have hmarks : ((p.marks.map mark).map Value.sorted).foldlM (restoreDone L) ∅ =
      .ok (sortedPlan p).done := by
    rw [List.map_map, List.foldlM_map]
    exact Dict.foldlM_set fun e _ held => restoreDone_ok e
  simp only [restorePlan, hsteps, hchecked, intItem_ok hseq, stringItem_ok hattempt,
    stringItem_ok hjob, intItem_ok hrun, stringItem_ok hplan, elements, hdicts, hdone, hmarks,
    optionalString_item hended, bind, Except.bind]
  rfl

theorem restoreDispatch_ok {held : Dict Str Value} {job : Str} {body : Value}
    (h : Dispatched L last job body) :
    restoreDispatch L held (job, body.sorted) = .ok (held.set job body.sorted) := by
  obtain ⟨seq, first, hseq, hpos, -, hfirst, hle⟩ := h.seq
  have hcheck : checkDispatch L body.sorted = .ok () := by
    rw [checkDispatch_sorted L h.json, h.accepted]
  have hplace := place_again h hseq
  have hjob : equal (Value.str job).sorted (.str job) = true := equal_of_sorted rfl
  have hno : ¬seq < 1 := by omega
  have hint : wireInt? (Value.int seq).sorted = some seq := rfl
  simp only [restoreDispatch, hcheck, item_sorted h.json h.job, item_sorted h.json hseq, hint, hjob,
    hplace, hno, decide_false, Bool.not_true, Bool.or_self, bind, Except.bind]
  rfl

/-! ## The table -/

section Table

variable {t : OpenTable}

theorem mem_sortedAttempts {a : OpenAttempt} :
    a ∈ t.sortedAttempts ↔ ∃ id, t.attempts.get? id = some a := by
  rw [sortedAttempts, (List.perm_insertionSort _ _).mem_iff, List.mem_map]
  constructor
  · rintro ⟨e, he, rfl⟩
    exact ⟨e.1, Dict.get?_eq_some.mpr he⟩
  · rintro ⟨id, hget⟩
    exact ⟨(id, a), Dict.get?_eq_some.mp hget, rfl⟩

theorem mem_sortedPending {p : PendingDispatch} :
    p ∈ t.sortedPending ↔ ∃ n, t.pending.get? n = some p := by
  rw [sortedPending, (List.perm_insertionSort _ _).mem_iff, List.mem_map]
  constructor
  · rintro ⟨e, he, rfl⟩
    exact ⟨e.1, Dict.get?_eq_some.mpr he⟩
  · rintro ⟨n, hget⟩
    exact ⟨(n, p), Dict.get?_eq_some.mp hget, rfl⟩

theorem mem_sortedPlans {p : OpenPlan} : p ∈ t.sortedPlans ↔ ∃ id, t.plans.get? id = some p := by
  rw [sortedPlans, (List.perm_insertionSort _ _).mem_iff, List.mem_map]
  constructor
  · rintro ⟨e, he, rfl⟩
    exact ⟨e.1, Dict.get?_eq_some.mpr he⟩
  · rintro ⟨id, hget⟩
    exact ⟨(id, p), Dict.get?_eq_some.mp hget, rfl⟩

/-- The latest dispatches as a mapping. -/
def heldDispatches (t : OpenTable) : Value := .mapping t.dispatches.entries

theorem Sound.isJson_dispatches (h : t.Sound L last) : t.heldDispatches.IsJson := by
  refine ⟨t.dispatches.nodup, Value.isObject_iff.mpr fun e he => ?_⟩
  have hdispatch := h.dispatches e.1 e.2 (Dict.get?_eq_some.mpr he)
  exact ⟨isJson_item hdispatch.json hdispatch.job, hdispatch.json⟩

def fields (t : OpenTable) (hash : Str) : List (String × Value) :=
  [("dispatches", t.heldDispatches),
    ("attempts", .list (t.sortedAttempts.map OpenAttempt.toPayload)),
    ("pending", .list (t.sortedPending.map PendingDispatch.toPayload)),
    ("plans", .list (t.sortedPlans.map OpenPlan.toPayload)), ("dispatch_hash", .str hash)]

/-- The payload under a hash. -/
def payload (t : OpenTable) (hash : Str) : Value := named (t.fields hash)

theorem Sound.isJson_payload (h : t.Sound L last) {hash : Str} (hhash : isScalarString hash = true) :
    (t.payload hash).IsJson := by
  refine isJson_named (by simp [fields]) ?_
  simp only [fields, List.forall_mem_cons]
  refine ⟨h.isJson_dispatches, ?_, ?_, ?_, hhash, fun _ hf => nomatch hf⟩
  · refine isArray_iff.mpr fun w hw => ?_
    obtain ⟨a, ha, rfl⟩ := List.mem_map.mp hw
    obtain ⟨id, hget⟩ := mem_sortedAttempts.mp ha
    exact (h.attempts id a hget).2.1.isJson
  · refine isArray_iff.mpr fun w hw => ?_
    obtain ⟨p, hp, rfl⟩ := List.mem_map.mp hw
    obtain ⟨n, hget⟩ := mem_sortedPending.mp hp
    exact (h.pending n p hget).2.isJson
  · refine isArray_iff.mpr fun w hw => ?_
    obtain ⟨p, hp, rfl⟩ := List.mem_map.mp hw
    obtain ⟨id, hget⟩ := mem_sortedPlans.mp hp
    exact (h.plans id p hget).2.isJson

theorem item_payload {hash : Str} (hjson : (t.payload hash).IsJson) (key : String)
    (hv : Dict.getIn key (t.fields hash) = some v) :
    item (t.payload hash).sorted (name key) = .ok v.sorted := item_named hjson key hv

end Table

/-! ## The hash -/

section Hash

variable {t : OpenTable}

theorem hashOver_congr (h : v.sorted = w.sorted) : hashOver L v = hashOver L w := by
  rw [hashOver, ← canonicalBytes_sorted, h, canonicalBytes_sorted, hashOver]

theorem Sound.isJson_hashed (h : t.Sound L last) :
    (hashed t.heldDispatches (t.sortedAttempts.map OpenAttempt.dispatch)).IsJson := by
  have hbodies : Value.IsArray (t.sortedAttempts.map OpenAttempt.dispatch) := by
    refine isArray_iff.mpr fun w hw => ?_
    obtain ⟨a, ha, rfl⟩ := List.mem_map.mp hw
    obtain ⟨id, hget⟩ := mem_sortedAttempts.mp ha
    exact (h.attempts id a hget).2.1.dispatched.json
  show (named [("dispatches", t.heldDispatches),
    ("attempts", .list (t.sortedAttempts.map OpenAttempt.dispatch))]).IsJson
  refine isJson_named (by simp) ?_
  simp only [List.forall_mem_cons]
  exact ⟨h.isJson_dispatches, hbodies, fun _ hf => nomatch hf⟩

/-- The table is written with a hash over what it keeps of its dispatches. -/
theorem Sound.toPayload_ok (h : t.Sound L last) : ∃ hash, isScalarString hash = true ∧
    hashOver L (hashed t.heldDispatches (t.sortedAttempts.map OpenAttempt.dispatch)) = .ok hash ∧
    t.toPayload L = .ok (t.payload hash) := by
  obtain ⟨text, htext, -⟩ := write_spells (ofChars ['$']) _ h.isJson_hashed
  have hhash : hashOver L (hashed t.heldDispatches (t.sortedAttempts.map OpenAttempt.dispatch)) =
      .ok (name "sha256:" ++ L.sha256 (String.ofList text).toByteArray) := by
    rw [hashOver, canonicalBytes, htext]
    rfl
  refine ⟨_, ?_, hhash, ?_⟩
  · have hfront : isScalarString (name "sha256:") = true := isScalarString_ofChars _
    rw [isScalarString] at hfront ⊢
    rw [List.all_append, hfront, ← isScalarString, L.scalar_sha256, Bool.and_self]
  · have hdispatches : Value.mapping t.dispatches.entries = t.heldDispatches := rfl
    rw [toPayload]
    simp only [hdispatches, hhash, bind, Except.bind]
    rfl

theorem checkHash_ok {hash : Str} (h : t.Sound L last) (hjson : (t.payload hash).IsJson)
    (hhash : hashOver L (hashed t.heldDispatches (t.sortedAttempts.map OpenAttempt.dispatch)) =
      .ok hash) : checkHash L (t.payload hash).sorted = .ok () := by
  have hhashItem := item_payload hjson "dispatch_hash" rfl
  have hdispatches := item_payload hjson "dispatches" rfl
  have hattempts : Dict.getIn (name "attempts") (items (t.payload hash).sorted) =
      some (.list ((t.sortedAttempts.map OpenAttempt.toPayload).map Value.sorted)) := by
    have hitem := item_ok_iff.mp (item_payload hjson "attempts" rfl)
    rwa [Value.sorted, Value.sortedArray_eq] at hitem
  have hbodies : ((t.sortedAttempts.map OpenAttempt.toPayload).map Value.sorted).mapM
      (fun a => item a (name "dispatch")) =
      .ok ((t.sortedAttempts.map OpenAttempt.dispatch).map Value.sorted) := by
    rw [List.map_map, List.map_map, List.mapM_map]
    refine mapM_eq_map fun a ha => ?_
    obtain ⟨id, hget⟩ := mem_sortedAttempts.mp ha
    simp only [Function.comp_apply]
    exact (h.attempts id a hget).2.1.item "dispatch" rfl
  -- in key order both are the same value
  have hsame : (hashed t.heldDispatches.sorted
      ((t.sortedAttempts.map OpenAttempt.dispatch).map Value.sorted)).sorted =
      (hashed t.heldDispatches (t.sortedAttempts.map OpenAttempt.dispatch)).sorted := by
    have hsorted : ((t.sortedAttempts.map OpenAttempt.dispatch).map Value.sorted).map Value.sorted =
        (t.sortedAttempts.map OpenAttempt.dispatch).map Value.sorted := by
      rw [List.map_map]
      refine List.map_congr_left fun w hw => ?_
      obtain ⟨a, ha, rfl⟩ := List.mem_map.mp hw
      obtain ⟨id, hget⟩ := mem_sortedAttempts.mp ha
      exact sorted_sorted (h.attempts id a hget).2.1.dispatched.json
    simp only [hashed, Value.sorted, Value.sortedObject_eq, Value.sortedArray_eq, List.map_cons,
      List.map_nil, sorted_sorted h.isJson_dispatches, hsorted]
  have hhash' := (hashOver_congr (L := L) hsame).trans hhash
  have hequal : equal (Value.str hash).sorted (.str hash) = true := equal_of_sorted rfl
  have helements : ∀ vs, elements (.list vs) = .ok vs := fun _ => rfl
  rw [checkHash, hhashItem, hdispatches, hattempts]
  simp only [Option.getD_some, helements, hbodies, bind, Except.bind]
  rw [hhash']
  simp only [hequal]
  rfl

end Hash

/-! ## The table read back -/

variable {t : OpenTable}

theorem restoreDispatches_ok (h : t.Sound L last) : ∃ held,
    restoreDispatches L t.heldDispatches.sorted = .ok held ∧
      Dict.Rel SameValue held t.dispatches := by
  refine ⟨Dict.setAll Prod.fst (fun e => e.2.sorted) (sortKeys t.dispatches.entries) ∅, ?_, ?_⟩
  · rw [heldDispatches, Value.sorted, Value.sortKeys_sortedObject, restoreDispatches, List.foldlM_map]
    refine Dict.foldlM_set fun e he held => ?_
    exact restoreDispatch_ok (h.dispatches e.1 e.2 (Dict.get?_eq_some.mpr (mem_sortKeys.mp he)))
  · have hkeys : ((sortKeys t.dispatches.entries).map Prod.fst).Nodup :=
      (sortKeys_perm.map Prod.fst).nodup_iff.mpr t.dispatches.nodup
    refine Dict.rel_setAll hkeys (fun e he => ?_) fun job body hget => ?_
    · have hget := Dict.get?_eq_some.mpr (mem_sortKeys.mp he)
      have hjson := (h.dispatches e.1 e.2 hget).json
      exact ⟨e.2, hget, Value.isJson_sorted _ hjson, hjson, sorted_sorted hjson⟩
    · exact List.mem_map.mpr ⟨(job, body), mem_sortKeys.mpr (Dict.get?_eq_some.mp hget), rfl⟩

/-- A list that is empty or not reads as itself. -/
theorem elements_orNothing (vs : List Value) : elements (orNothing (.list vs)) = .ok vs := by
  cases vs with
  | nil => rfl
  | cons v vs => rfl

theorem sorted_sortedAttempt {a : OpenAttempt} (h : a.Sound L last) : a.sorted.sorted = a.sorted := by
  have hitem : ∀ {key : Str} {v : Value}, item a.dispatch key = .ok v → v.IsJson :=
    isJson_item h.dispatched.json
  rw [OpenAttempt.sorted, OpenAttempt.sorted, sorted_sorted (hitem h.spool),
    sorted_sorted (hitem h.env), sorted_sorted h.after, sorted_sorted h.dispatched.json]

/-- Reading the payload of a sound table comes down to the checks of the first seqs. -/
theorem fromPayload_eq {hash : Str} (h : t.Sound L last) (hjson : (t.payload hash).IsJson)
    (hhash : hashOver L (hashed t.heldDispatches (t.sortedAttempts.map OpenAttempt.dispatch)) =
      .ok hash) :
    ∃ held, Dict.Rel SameValue held t.dispatches ∧ fromPayload L (t.payload hash).sorted = (do
      let attempts ← t.sortedAttempts.foldlM (fun d a => do
        checkRetained held a.job a.toPayload.sorted a.dispatch.sorted
        return d.set a.attempt a.sorted) (∅ : Dict Str OpenAttempt)
      return { attempts, dispatches := held, update := none, ended := none
               pending := Dict.setAll PendingDispatch.seq id t.sortedPending ∅
               plans := Dict.setAll OpenPlan.attempt sortedPlan t.sortedPlans ∅ }) := by
  obtain ⟨held, hheld, hrel⟩ := restoreDispatches_ok h
  have hdispatches := item_payload hjson "dispatches" rfl
  have hattemptsItem : dictGet (t.payload hash).sorted (name "attempts") =
      .list ((t.sortedAttempts.map OpenAttempt.toPayload).map Value.sorted) := by
    rw [get_of_item (item_payload hjson "attempts" rfl), Value.sorted, Value.sortedArray_eq]
  have hpendingItem : dictGet (t.payload hash).sorted (name "pending") =
      .list ((t.sortedPending.map PendingDispatch.toPayload).map Value.sorted) := by
    rw [get_of_item (item_payload hjson "pending" rfl), Value.sorted, Value.sortedArray_eq]
  have hplansItem : dictGet (t.payload hash).sorted (name "plans") =
      .list ((t.sortedPlans.map OpenPlan.toPayload).map Value.sorted) := by
    rw [get_of_item (item_payload hjson "plans" rfl), Value.sorted, Value.sortedArray_eq]
  have hattempts : ((t.sortedAttempts.map OpenAttempt.toPayload).map Value.sorted).foldlM
      (restoreAttempt L held) ∅ = t.sortedAttempts.foldlM (fun d a => do
        checkRetained held a.job a.toPayload.sorted a.dispatch.sorted
        return d.set a.attempt a.sorted) (∅ : Dict Str OpenAttempt) := by
    rw [List.map_map, List.foldlM_map]
    refine foldlM_congr fun d a ha => ?_
    obtain ⟨id, hget⟩ := mem_sortedAttempts.mp ha
    exact restoreAttempt_eq (h.attempts id a hget).2.1
  have hpending : ((t.sortedPending.map PendingDispatch.toPayload).map Value.sorted).foldlM
      restorePending ∅ = .ok (Dict.setAll PendingDispatch.seq id t.sortedPending ∅) := by
    rw [List.map_map, List.foldlM_map]
    refine Dict.foldlM_set fun p hp d => ?_
    obtain ⟨n, hget⟩ := mem_sortedPending.mp hp
    exact restorePending_ok (h.pending n p hget).2
  have hplans : ((t.sortedPlans.map OpenPlan.toPayload).map Value.sorted).foldlM (restorePlan L) ∅ =
      .ok (Dict.setAll OpenPlan.attempt sortedPlan t.sortedPlans ∅) := by
    rw [List.map_map, List.foldlM_map]
    refine Dict.foldlM_set fun p hp d => ?_
    obtain ⟨id, hget⟩ := mem_sortedPlans.mp hp
    exact restorePlan_ok (h.plans id p hget).2
  refine ⟨held, hrel, ?_⟩
  rw [fromPayload, checkHash_ok h hjson hhash, ok_bind, hdispatches, ok_bind, hheld, ok_bind,
    hattemptsItem, elements_orNothing, ok_bind, hattempts]
  simp only [hpendingItem, elements_orNothing, ok_bind, hpending, hplansItem, hplans]

/-- **The payload of a sound table reads back as a table that holds the same**, its update beside
it, where each open attempt has the retained first seq. Anywhere else it is refused. -/
theorem fromPayload_ok {hash : Str} (h : t.Sound L last) (hjson : (t.payload hash).IsJson)
    (hhash : hashOver L (hashed t.heldDispatches (t.sortedAttempts.map OpenAttempt.dispatch)) =
      .ok hash) :
    (t.Retains → ∃ u, fromPayload L (t.payload hash).sorted = .ok u ∧
      u.Same { t with update := none } ∧ u.ended = none) ∧
    (¬t.Retains → ∃ e, fromPayload L (t.payload hash).sorted = .error e) := by
  obtain ⟨held, hrel, heq⟩ := fromPayload_eq h hjson hhash
  have hcheck : ∀ id a, t.attempts.get? id = some a → _ := fun id a hget =>
    let ⟨_, ha, hknown⟩ := h.attempts id a hget
    checkRetained_eq ha hknown h.dispatches hrel (ha.item "run_number" rfl)
  rw [heq]
  constructor
  · intro hretains
    have hloop : t.sortedAttempts.foldlM (fun d a => do
        checkRetained held a.job a.toPayload.sorted a.dispatch.sorted
        return d.set a.attempt a.sorted) (∅ : Dict Str OpenAttempt) =
        .ok (Dict.setAll OpenAttempt.attempt OpenAttempt.sorted t.sortedAttempts ∅) := by
      refine Dict.foldlM_set fun a ha d => ?_
      obtain ⟨id, hget⟩ := mem_sortedAttempts.mp ha
      rw [(hcheck id a hget).1 (hretains id a hget)]
      rfl
    rw [hloop]
    refine ⟨_, rfl, ?_, rfl⟩
    exact {
      attempts := Dict.rel_values (List.perm_insertionSort _ _)
        (fun id a hget => (h.attempts id a hget).1)
        fun id a hget => sorted_sortedAttempt (h.attempts id a hget).2.1
      dispatches := hrel
      pending := Dict.rel_values (List.perm_insertionSort _ _)
        (fun n p hget => (h.pending n p hget).1) fun _ _ _ => rfl
      plans := Dict.rel_values (List.perm_insertionSort _ _) (fun id p hget => (h.plans id p hget).1)
        fun id p hget => sortedPlan_same (h.plans id p hget).2
      update := .none }
  · intro hretains
    simp only [Retains, not_forall] at hretains
    obtain ⟨id, a, hget, hnot⟩ := hretains
    obtain ⟨e, he⟩ := (hcheck id a hget).2 hnot
    have hfails := foldlM_fails (f := fun (d : Dict Str OpenAttempt) a => do
        checkRetained held a.job a.toPayload.sorted a.dispatch.sorted
        return d.set a.attempt a.sorted) (a := a) (fun d => ⟨e, by rw [he]; rfl⟩)
      (b := ∅) (mem_sortedAttempts.mpr ⟨id, hget⟩)
    obtain ⟨e', he'⟩ := hfails
    exact ⟨e', by rw [he']; rfl⟩

end OpenTable

end Dsl41.Runner
