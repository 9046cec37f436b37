import Dsl41.Admission.Retries

/-!
# Runs of the index

Every allowed operation keeps the index and the store consistent, a restart included; what a lookup
answers follows from that.
-/

namespace Dsl41.Admission

open Infra Infra.Effect

namespace Engine

variable {e e' : Engine} {id text : String} {row : Row}

/-- The maps hold retained decisions, and the store's rows are as the engine wrote them. -/
structure Sound (e : Engine) : Prop where
  describes : ∃ decided, Describes e.decisions e.inFlight decided ∧ ∀ d ∈ decided, d ∈ decisionsOf e.rows
  ordered : Ordered e.journal
  last : ∀ r ∈ e.journal, r.1 ≤ e.last_seq
  covered : e.snapshot ≤ e.last_seq
  tail : Admissions e.tail
  ids : (idsOf e.rows).Nodup
  indexes : (decisionsOf e.rows).Pairwise fun d d' => d.2.index < d'.2.index
  settled : ∀ d ∈ decisionsOf e.rows, d.2.index ≤ e.settled
  committed : e.settled ≤ e.committed_index
  open_index : ∀ a ∈ e.inFlight, a.index ≤ e.committed_index
  open_fresh : ∀ a ∈ e.inFlight, a.request_id ∉ idsOf e.rows
  named : ∀ id ∈ idsOf e.rows, reserved id = true → ∃ i ≤ e.settled, id = engineId i
  open_named : ∀ a ∈ e.inFlight, reserved a.request_id = true → a.request_id = engineId a.index

theorem sound_init : Sound {} where
  describes := ⟨[], describes_empty, fun _ hd => absurd hd List.not_mem_nil⟩
  ordered := .nil
  last _ hr := absurd hr List.not_mem_nil
  covered := le_rfl
  tail := .nil
  ids := List.nodup_nil
  indexes := .nil
  settled _ hd := absurd hd List.not_mem_nil
  committed := le_rfl
  open_index _ ha := absurd ha List.not_mem_nil
  open_fresh _ ha := absurd ha List.not_mem_nil
  named _ hid := absurd hid List.not_mem_nil
  open_named _ ha := absurd ha List.not_mem_nil

/-! ## Lookups -/

/-- A lookup answers what the retained rows and the attempts in flight say, and changes nothing. -/
theorem Sound.lookup (h : Sound e) :
    (e.lookup id text).result e.decisions = e.answer id text ∧
      (e.lookup id text).after e.decisions = e.decisions := by
  obtain ⟨decided, hindex, hstored⟩ := h.describes
  by_cases hopen : ∃ a ∈ e.inFlight, a.request_id = id
  · obtain ⟨a, ha, rfl⟩ := hopen
    obtain ⟨hresult, hafter⟩ :=
      lookup_open text (some (decisionLookup e.rows)) hindex ha
    refine ⟨hresult.trans ?_, hafter⟩
    have hfound : e.inFlight.find? (fun b => decide (b.request_id = a.request_id)) = some a := by
      cases hfind : e.inFlight.find? (fun b => decide (b.request_id = a.request_id)) with
      | none => exact absurd (decide_eq_true rfl) (List.find?_eq_none.mp hfind a ha)
      | some b =>
        have hid : b.request_id = a.request_id := by simpa using List.find?_some hfind
        rw [hindex.open_unique ha (List.mem_of_find?_eq_some hfind) hid]
    rw [answer, status, find_request_none (h.open_fresh a ha), hfound]
  · have hnone : e.inFlight.find? (fun b => decide (b.request_id = id)) = none := by
      refine List.find?_eq_none.mpr fun a ha => ?_
      rw [decide_eq_true_eq]
      exact fun hid => hopen ⟨a, ha, hid⟩
    by_cases hdecided : ∃ d ∈ decided, d.2.request_id = id
    · obtain ⟨d, hd, rfl⟩ := hdecided
      obtain ⟨hresult, hafter⟩ :=
        lookup_decided text (some (decisionLookup e.rows)) hindex hd
      refine ⟨hresult.trans ?_, hafter⟩
      rw [answer, status, find_decision h.ids (hstored d hd)]
    · have hfresh : Unseen e.inFlight decided id :=
        ⟨fun a ha hid => hopen ⟨a, ha, hid⟩, fun d hd hid => hdecided ⟨d, hd, hid⟩⟩
      obtain ⟨hresult, hafter⟩ :=
        lookup_unseen text (some (decisionLookup e.rows)) hindex hfresh
      refine ⟨hresult.trans ?_, hafter⟩
      rw [answer, status, hnone, Option.map_some, Option.getD_some, decisionLookup]
      cases hfind : find_request e.rows id with
      | none => rfl
      | some row =>
        cases row with
        | decision under result => rfl
        | intent request_id fingerprint => rfl
        | input a => rfl
        | other => rfl

/-- A lookup that finds nothing is of an unseen id. -/
theorem Sound.unseen (h : Sound e) (hnone : (e.lookup id text).result e.decisions = .ok none) :
    (∀ a ∈ e.inFlight, a.request_id ≠ id) ∧ id ∉ idsOf e.rows := by
  rw [h.lookup.1, answer, status] at hnone
  cases hfind : find_request e.rows id with
  | some row =>
    rw [hfind] at hnone
    cases row with
    | decision under result =>
      dsimp only at hnone
      split at hnone
      · cases hnone
      · cases hnone
    | intent request_id fingerprint => cases hnone
    | input a => cases hnone
    | other => cases hnone
  | none =>
    refine ⟨fun a ha hid => ?_, not_mem_idsOf hfind⟩
    rw [hfind] at hnone
    cases hfound : e.inFlight.find? (fun b => decide (b.request_id = id)) with
    | none => exact absurd (decide_eq_true hid) (List.find?_eq_none.mp hfound a ha)
    | some b =>
      rw [hfound] at hnone
      dsimp only at hnone
      split at hnone
      · cases hnone
      · cases hnone

/-! ## Names of the engine's inputs -/

theorem engineId_injective {i j : Nat} (h : engineId i = engineId j) : i = j := by
  have hlist := congrArg String.toList h
  rw [engineId, engineId, String.toList_append, String.toList_append] at hlist
  have hdigits : (toString i).toList = (toString j).toList := List.append_cancel_left hlist
  have hrepr : Nat.toDigits 10 i = Nat.toDigits 10 j := by
    simpa only [Nat.toString_eq_repr, Nat.toList_repr] using hdigits
  have hof := congrArg (fun digits => Nat.ofDigitChars 10 digits 0) hrepr
  simpa only [Nat.ofDigitChars_ten_toDigits] using hof

theorem reserved_engineId {i : Nat} : reserved (engineId i) = true := by
  rw [reserved, engineId, String.toList_append]
  exact List.isPrefixOf_iff_prefix.mpr (List.prefix_append _ _)

/-! ## The journal -/

/-- The rows are in the order of their seqs, which the snapshot's is among. -/
structure Journaled (e : Engine) : Prop where
  ordered : Ordered e.journal
  last : ∀ r ∈ e.journal, r.1 ≤ e.last_seq
  covered : e.snapshot ≤ e.last_seq

theorem Sound.journaled (h : Sound e) : Journaled e := ⟨h.ordered, h.last, h.covered⟩

variable (e row) in
/-- The engine with one more row. -/
def pushed : Engine :=
  { e with journal := e.journal ++ [(e.last_seq + 1, row)], last_seq := e.last_seq + 1 }

theorem push_ok (h : ∀ id, row.request_id = some id → id ∉ idsOf e.rows) : e.push row = .ok (e.pushed row) := by
  unfold push
  cases hid : row.request_id with
  | none => rfl
  | some id => exact if_neg (h id hid)

theorem pushed_rows : (e.pushed row).rows = e.rows ++ [row] := List.map_append

theorem Journaled.pushed (h : Journaled e) (row : Row) : Journaled (e.pushed row) where
  ordered := h.ordered.push fun r hr => Int.lt_add_one_of_le (h.last r hr)
  last r hr := by
    rcases List.mem_append.mp hr with hr | hr
    · exact (h.last r hr).trans (Int.le_of_lt (Int.lt_add_one_of_le le_rfl))
    · rw [List.mem_singleton.mp hr]
      exact le_rfl
  covered := h.covered.trans (Int.le_of_lt (Int.lt_add_one_of_le le_rfl))

theorem Journaled.pushed_tail (h : Journaled e) : (e.pushed row).tail = e.tail ++ [row] := by
  have hnew : e.snapshot < e.last_seq + 1 := Int.lt_add_one_of_le h.covered
  have hone : rowsAfter e.snapshot [(e.last_seq + 1, row)] = [(e.last_seq + 1, row)] :=
    List.filter_eq_self.mpr fun r hr => by simpa [List.mem_singleton.mp hr] using hnew
  show ((e.journal ++ [(e.last_seq + 1, row)]).filter fun r => decide (e.snapshot < r.1)).map Prod.snd = _
  rw [List.filter_append, List.map_append]
  exact congrArg (fun rows => e.tail ++ rows.map Prod.snd) hone

/-! ## Steps -/

theorem onIndex_ok {α : Type} {m : IndexM α} {a : α} (h : m.result e.decisions = .ok a) :
    e.onIndex m = .ok { e with decisions := m.after e.decisions } := by
  rw [onIndex, h]

/-- An attempt under an id that nothing has taken is noted. -/
theorem Sound.note {a : Attempt} (h : Sound e) (hallowed : e.Allowed (.note a)) :
    ∃ e', e.step (.note a) = .ok e' ∧ Sound e' := by
  obtain ⟨hindex, hid⟩ := hallowed
  have hfresh : (∀ b ∈ e.inFlight, b.request_id ≠ a.request_id) ∧ a.request_id ∉ idsOf e.rows := by
    rcases hid with ⟨-, hnone⟩ | hname
    · exact h.unseen hnone
    · constructor
      · intro b hb heq
        have hreserved : reserved b.request_id = true := by
          rw [heq, hname]
          exact reserved_engineId
        have hb' := engineId_injective ((h.open_named b hb hreserved).symm.trans (heq.trans hname))
        exact absurd (h.open_index b hb) (Nat.not_le.mpr (hb' ▸ hindex))
      · intro hmem
        have hreserved : reserved a.request_id = true := by
          rw [hname]
          exact reserved_engineId
        obtain ⟨i, hi, heq⟩ := h.named _ hmem hreserved
        have hi' := engineId_injective (heq.symm.trans hname)
        exact absurd (hi.trans h.committed) (Nat.not_le.mpr (hi' ▸ hindex))
  obtain ⟨decided, hdescribes, hstored⟩ := h.describes
  obtain ⟨hresult, hnoted⟩ := note_spec hdescribes (a := a) ⟨hfresh.1, fun d hd hid =>
    hfresh.2 (hid ▸ mem_idsOf_of_decision (hstored d hd))⟩
  refine ⟨{ e with
    decisions := (Admission.note a).after e.decisions
    committed_index := a.index
    inFlight := a :: e.inFlight }, ?_, ?_⟩
  · rw [step, onIndex_ok hresult]
    rfl
  · exact {
      describes := ⟨decided, hnoted, hstored⟩
      ordered := h.ordered
      last := h.last
      covered := h.covered
      tail := h.tail
      ids := h.ids
      indexes := h.indexes
      settled := h.settled
      committed := h.committed.trans (Nat.le_of_lt hindex)
      open_index := List.forall_mem_cons.mpr
        ⟨le_rfl, fun b hb => (h.open_index b hb).trans (Nat.le_of_lt hindex)⟩
      open_fresh := List.forall_mem_cons.mpr ⟨hfresh.2, h.open_fresh⟩
      named := h.named
      open_named := List.forall_mem_cons.mpr ⟨fun hreserved => by
        rcases hid with ⟨hclient, -⟩ | hname
        · rw [hclient] at hreserved
          cases hreserved
        · exact hname, h.open_named⟩ }

/-- A decision of an attempt in flight is recorded and stored. -/
theorem Sound.record {a : Attempt} {result : ApplyResult} (h : Sound e) (hallowed : e.Allowed (.record a result)) :
    ∃ e', e.step (.record a result) = .ok e' ∧ Sound e' := by
  obtain ⟨ha, hid, hindex, hsettled⟩ := hallowed
  obtain ⟨decided, hdescribes, hstored⟩ := h.describes
  obtain ⟨hresult, hrecorded⟩ := record_spec hdescribes ha hid fun d hd =>
    (h.settled d (hstored d hd)).trans_lt (hindex ▸ hsettled)
  let e₁ : Engine := { e with decisions := (Admission.record result).after e.decisions }
  have hj : Journaled e₁ := ⟨h.ordered, h.last, h.covered⟩
  have hpush₁ : e₁.push (.input a) = .ok (e₁.pushed (.input a)) := push_ok fun id hid => nomatch hid
  have hfresh : a.request_id ∉ idsOf (e₁.pushed (.input a)).rows := by
    rw [pushed_rows, idsOf_append]
    intro hmem
    rcases List.mem_append.mp hmem with hmem | hmem
    · exact h.open_fresh a ha hmem
    · cases hmem
  have hpush₂ : (e₁.pushed (.input a)).push (.decision a.fingerprint result) =
      .ok ((e₁.pushed (.input a)).pushed (.decision a.fingerprint result)) :=
    push_ok fun id hid' => by
      obtain rfl : result.request_id = id := Option.some.inj hid'
      rw [hid]
      exact hfresh
  have hrows : ((e₁.pushed (.input a)).pushed (.decision a.fingerprint result)).rows =
      e.rows ++ [.input a, .decision a.fingerprint result] := by
    rw [pushed_rows, pushed_rows, List.append_assoc]
    rfl
  have hids : idsOf (e.rows ++ [.input a, .decision a.fingerprint result]) = idsOf e.rows ++ [a.request_id] := by
    rw [idsOf_append, ← hid]
    rfl
  have hdecisions : decisionsOf (e.rows ++ [.input a, .decision a.fingerprint result]) =
      decisionsOf e.rows ++ [(a.fingerprint, result)] := decisionsOf_append
  have hj₂ := (hj.pushed (.input a)).pushed (.decision a.fingerprint result)
  refine ⟨{ (e₁.pushed (.input a)).pushed (.decision a.fingerprint result) with
    settled := a.index, inFlight := withoutId a.request_id e.inFlight }, ?_, ?_⟩
  · simp only [step, onIndex_ok hresult, Infra.ok_bind]
    show (do
      let e ← e₁.push (.input a)
      let e ← e.push (.decision a.fingerprint result)
      return ({ e with settled := a.index, inFlight := withoutId a.request_id e.inFlight } : Engine)) = _
    rw [hpush₁, Infra.ok_bind, hpush₂]
    rfl
  · exact {
      describes := ⟨_, hrecorded, fun d hd => by
        show d ∈ decisionsOf ((e₁.pushed (.input a)).pushed (.decision a.fingerprint result)).rows
        rw [hrows, hdecisions]
        exact List.mem_append.mpr ((List.mem_append.mp hd).imp_left (hstored d))⟩
      ordered := hj₂.ordered
      last := hj₂.last
      covered := hj₂.covered
      tail := by
        show Admissions ((e₁.pushed (.input a)).pushed (.decision a.fingerprint result)).tail
        rw [(hj.pushed _).pushed_tail, hj.pushed_tail, List.append_assoc]
        exact h.tail.append (.admission a result hid .nil)
      ids := by
        show (idsOf ((e₁.pushed (.input a)).pushed (.decision a.fingerprint result)).rows).Nodup
        rw [hrows, hids]
        exact List.nodup_append.mpr ⟨h.ids, List.nodup_singleton _, fun x hx y hy hxy =>
          h.open_fresh a ha (List.mem_singleton.mp hy ▸ hxy ▸ hx)⟩
      indexes := by
        show (decisionsOf ((e₁.pushed (.input a)).pushed (.decision a.fingerprint result)).rows).Pairwise _
        rw [hrows, hdecisions]
        exact List.pairwise_append.mpr ⟨h.indexes, List.pairwise_singleton _ _, fun d hd d' hd' =>
          List.mem_singleton.mp hd' ▸ (h.settled d hd).trans_lt (hindex ▸ hsettled)⟩
      settled := by
        show ∀ d ∈ decisionsOf ((e₁.pushed (.input a)).pushed (.decision a.fingerprint result)).rows,
          d.2.index ≤ a.index
        rw [hrows, hdecisions]
        intro d hd
        rcases List.mem_append.mp hd with hd | hd
        · exact (h.settled d hd).trans (Nat.le_of_lt hsettled)
        · rw [List.mem_singleton.mp hd]
          exact Nat.le_of_eq hindex
      committed := h.open_index a ha
      open_index := fun b hb => h.open_index b (mem_withoutId.mp hb).1
      open_fresh := fun b hb => by
        show b.request_id ∉ idsOf ((e₁.pushed (.input a)).pushed (.decision a.fingerprint result)).rows
        obtain ⟨hb, hne⟩ := mem_withoutId.mp hb
        rw [hrows, hids]
        intro hmem
        rcases List.mem_append.mp hmem with hmem | hmem
        · exact h.open_fresh b hb hmem
        · exact hne (List.mem_singleton.mp hmem)
      named := by
        show ∀ id ∈ idsOf ((e₁.pushed (.input a)).pushed (.decision a.fingerprint result)).rows,
          reserved id = true → ∃ i ≤ a.index, id = engineId i
        rw [hrows, hids]
        intro id hmem hreserved
        rcases List.mem_append.mp hmem with hmem | hmem
        · obtain ⟨i, hi, heq⟩ := h.named id hmem hreserved
          exact ⟨i, hi.trans (Nat.le_of_lt hsettled), heq⟩
        · rw [List.mem_singleton.mp hmem] at hreserved ⊢
          exact ⟨a.index, le_rfl, h.open_named a ha hreserved⟩
      open_named := fun b hb => h.open_named b (mem_withoutId.mp hb).1 }

theorem Sound.evict_below {below : Nat} (h : Sound e) :
    ∃ e', e.step (.evict_below below) = .ok e' ∧ Sound e' := by
  obtain ⟨decided, hdescribes, hstored⟩ := h.describes
  obtain ⟨hresult, hevicted⟩ := evict_below_spec below hdescribes
  exact ⟨_, onIndex_ok hresult,
    { h with describes := ⟨_, hevicted, fun d hd => hstored d (List.mem_filter.mp hd).1⟩ }⟩

/-- A row that holds no decision is appended, under a new id if it takes one. -/
theorem Sound.pushed (h : Sound e) (hrow : row.decision? = none) (htail : Admissions [row])
    (hids : ∀ id, row.request_id = some id →
      id ∉ idsOf e.rows ∧ reserved id = false ∧ ∀ a ∈ e.inFlight, a.request_id ≠ id) :
    Sound (e.pushed row) := by
  have hj := h.journaled.pushed row
  have hdecisions : decisionsOf (e.pushed row).rows = decisionsOf e.rows := by
    have hnone : decisionsOf [row] = [] := List.filterMap_cons_none hrow
    rw [pushed_rows, decisionsOf_append, hnone, List.append_nil]
  have hmem : ∀ id ∈ idsOf (e.pushed row).rows, id ∈ idsOf e.rows ∨ row.request_id = some id := by
    rw [pushed_rows, idsOf_append]
    intro id hid
    refine (List.mem_append.mp hid).imp_right fun hid => ?_
    obtain ⟨row', hrow', hid⟩ := List.mem_filterMap.mp hid
    exact List.mem_singleton.mp hrow' ▸ hid
  exact {
    describes := by
      rw [hdecisions]
      exact h.describes
    ordered := hj.ordered
    last := hj.last
    covered := hj.covered
    tail := by
      rw [h.journaled.pushed_tail]
      exact h.tail.append htail
    ids := by
      rw [pushed_rows, idsOf_append]
      cases hid : row.request_id with
      | none =>
        rw [idsOf, idsOf, List.filterMap_cons_none hid, List.filterMap_nil, List.append_nil]
        exact h.ids
      | some id =>
        rw [idsOf, idsOf, List.filterMap_cons_some hid, List.filterMap_nil]
        exact List.nodup_append.mpr ⟨h.ids, List.nodup_singleton _, fun x hx y hy hxy =>
          (hids id hid).1 (List.mem_singleton.mp hy ▸ hxy ▸ hx)⟩
    indexes := by
      rw [hdecisions]
      exact h.indexes
    settled := by
      rw [hdecisions]
      exact h.settled
    committed := h.committed
    open_index := h.open_index
    open_fresh := fun a ha hid => (hmem _ hid).elim (h.open_fresh a ha) fun hid =>
      (hids _ hid).2.2 a ha rfl
    named := fun id hid hreserved => (hmem id hid).elim (fun hid => h.named id hid hreserved) fun hid => by
      rw [(hids id hid).2.1] at hreserved
      cases hreserved
    open_named := h.open_named }

theorem fingerprints_of_state {index : DecisionIndex} (h : index.state id = .ok none) :
    index.fingerprints.get? id = none := by
  unfold DecisionIndex.state at h
  split at h
  · cases h
  · split at h
    · next hnone => exact Option.isNone_iff_eq_none.mp hnone
    · split at h
      · cases h
      · split at h
        · cases h
        · cases h

theorem Sound.intent (h : Sound e) (hallowed : e.Allowed (.intent id text)) :
    ∃ e', e.step (.intent id text) = .ok e' ∧ Sound e' := by
  obtain ⟨hreserved, hstate, hfind⟩ := hallowed
  obtain ⟨decided, hdescribes, -⟩ := h.describes
  have hopen := (hdescribes.unseen.mp (fingerprints_of_state hstate)).1
  have hid : ∀ id', (Row.intent id text).request_id = some id' → id' = id := fun id' hid' =>
    (Option.some.inj hid').symm
  have hpush : e.push (.intent id text) = .ok (e.pushed (.intent id text)) := push_ok fun id' hid' => by
    rw [hid id' hid']
    exact not_mem_idsOf hfind
  refine ⟨_, hpush, h.pushed rfl (.intent id text .nil) fun id' hid' => ?_⟩
  · rw [hid id' hid']
    exact ⟨not_mem_idsOf hfind, hreserved, hopen⟩

theorem Sound.other (h : Sound e) : ∃ e', e.step .other = .ok e' ∧ Sound e' := by
  have hnone : ∀ id, Row.other.request_id ≠ some id := fun id hid => nomatch hid
  have hpush : e.push .other = .ok (e.pushed .other) := push_ok fun id hid => absurd hid (hnone id)
  exact ⟨_, hpush, h.pushed rfl (.other .nil) fun id hid => absurd hid (hnone id)⟩

theorem Sound.snapshot (h : Sound e) : ∃ e', e.step .snapshot = .ok e' ∧ Sound e' := by
  have hnone : rowsAfter e.last_seq e.journal = [] :=
    List.filter_eq_nil_iff.mpr fun r hr => by simpa using h.last r hr
  refine ⟨_, rfl, { h with covered := le_rfl, tail := ?_ }⟩
  show Admissions ((rowsAfter e.last_seq e.journal).map Prod.snd)
  rw [hnone]
  exact .nil

/-- The rows below a seq are an older part of the journal. -/
theorem Sound.split (h : Sound e) (bound : Int) :
    ∃ gone, e.rows = gone ++ ({ e with journal := e.journal.filter fun r => decide (bound ≤ r.1) } : Engine).rows := by
  have hsplit := h.ordered.split (bound - 1)
  have hkept : rowsAfter (bound - 1) e.journal = e.journal.filter fun r => decide (bound ≤ r.1) :=
    List.filter_congr fun r _ => by
      rw [decide_eq_decide]
      omega
  refine ⟨(e.journal.filter fun r => decide (r.1 ≤ bound - 1)).map Prod.snd, ?_⟩
  rw [rows, rows, ← hkept, ← List.map_append, hsplit]

/-- With the rows below a seq gone, and an index that holds retained decisions, all is as before. -/
theorem Sound.kept {bound : Int} {index : DecisionIndex} (h : Sound e) (hbound : bound ≤ e.snapshot)
    (hindex : ∃ decided, Describes index e.inFlight decided ∧ ∀ d ∈ decided, d ∈ decisionsOf
      ({ e with journal := e.journal.filter fun r => decide (bound ≤ r.1) } : Engine).rows) :
    Sound { e with journal := e.journal.filter fun r => decide (bound ≤ r.1), decisions := index } := by
  obtain ⟨gone, hgone⟩ := h.split bound
  have hdecisions := congrArg decisionsOf hgone
  have hids := congrArg idsOf hgone
  rw [decisionsOf_append] at hdecisions
  rw [idsOf_append] at hids
  exact {
    describes := hindex
    ordered := h.ordered.filter _
    last := fun r hr => h.last r (List.mem_filter.mp hr).1
    covered := h.covered
    tail := by
      have htail : rowsAfter e.snapshot (e.journal.filter fun r => decide (bound ≤ r.1)) =
          rowsAfter e.snapshot e.journal := by
        rw [rowsAfter, List.filter_filter, rowsAfter]
        refine List.filter_congr fun r _ => ?_
        rw [Bool.and_eq_left_iff_imp, decide_eq_true_eq, decide_eq_true_eq]
        omega
      show Admissions ((rowsAfter e.snapshot (e.journal.filter fun r => decide (bound ≤ r.1))).map Prod.snd)
      rw [htail]
      exact h.tail
    ids := (List.nodup_append.mp (hids ▸ h.ids)).2.1
    indexes := (List.pairwise_append.mp (hdecisions ▸ h.indexes)).2.1
    settled := fun d hd => h.settled d (hdecisions ▸ List.mem_append_right _ hd)
    committed := h.committed
    open_index := h.open_index
    open_fresh := fun a ha hid => h.open_fresh a ha (hids ▸ List.mem_append_right _ hid)
    named := fun id hid => h.named id (hids ▸ List.mem_append_right _ hid)
    open_named := h.open_named }

theorem Sound.prune {bound : Int} (h : Sound e) (hbound : bound ≤ e.snapshot) :
    ∃ e', e.step (.prune bound) = .ok e' ∧ Sound e' := by
  obtain ⟨decided, hdescribes, hstored⟩ := h.describes
  obtain ⟨gone, hgone⟩ := h.split bound
  have hdecisions := congrArg decisionsOf hgone
  rw [decisionsOf_append] at hdecisions
  let kept : Engine := { e with journal := e.journal.filter fun r => decide (bound ≤ r.1) }
  by_cases hdeleted : kept.journal.length < e.journal.length
  · obtain ⟨hresult, hevicted⟩ := evict_below_spec
      (firstDecisionIndex kept.rows (e.committed_index + 1)) hdescribes
    refine ⟨_, (if_pos hdeleted).trans (onIndex_ok hresult), h.kept hbound ⟨_, hevicted, fun d hd => ?_⟩⟩
    obtain ⟨hd, hfirst⟩ := List.mem_filter.mp hd
    have hmem := hstored d hd
    have hordered := h.indexes
    rw [hdecisions] at hmem hordered
    -- a decision from the first retained one on is retained
    refine (List.mem_append.mp hmem).resolve_left fun hmem => ?_
    have hle := of_decide_eq_true hfirst
    unfold firstDecisionIndex at hle
    split at hle
    · have hsettled := (h.settled d (hstored d hd)).trans h.committed
      omega
    · next first rest hkept =>
      have hlt := (List.pairwise_append.mp hordered).2.2 d hmem first (hkept ▸ List.mem_cons_self)
      omega
  · have hsame : kept.journal = e.journal := List.filter_sublist.eq_of_length_le (Nat.not_lt.mp hdeleted)
    refine ⟨_, if_neg hdeleted, h.kept hbound ⟨decided, hdescribes, fun d hd => ?_⟩⟩
    show d ∈ decisionsOf (kept.journal.map Prod.snd)
    rw [hsame]
    exact hstored d hd

/-- A restart rebuilds the index from the rows after the latest snapshot. -/
theorem Sound.restart (h : Sound e) : ∃ e', e.step .restart = .ok e' ∧ Sound e' := by
  have hsub : e.tail.Sublist e.rows := List.filter_sublist.map _
  have hdecisions : (decisionsOf e.tail).Sublist (decisionsOf e.rows) := hsub.filterMap _
  obtain ⟨hresult, hread⟩ := read_decisions_spec h.tail describes_empty
    (ids_sublist.nodup (h.ids.sublist (hsub.filterMap _))) (h.indexes.sublist hdecisions)
  refine ⟨{ e with
    decisions := (read_decisions e.tail).after {}
    committed_index := e.settled
    inFlight := [] }, ?_, ?_⟩
  · have hstep := onIndex_ok (e := { e with decisions := {} }) hresult
    show (do
      let e' ← onIndex { e with decisions := {} } (read_decisions e.tail)
      return ({ e' with committed_index := e.settled, inFlight := [] } : Engine)) = _
    rw [hstep]
    rfl
  · exact {
      describes := ⟨_, hread, fun d hd => hdecisions.subset hd⟩
      ordered := h.ordered
      last := h.last
      covered := h.covered
      tail := h.tail
      ids := h.ids
      indexes := h.indexes
      settled := h.settled
      committed := le_rfl
      open_index := fun a ha => absurd ha List.not_mem_nil
      open_fresh := fun a ha => absurd ha List.not_mem_nil
      named := h.named
      open_named := fun a ha => absurd ha List.not_mem_nil }

/-! ## Runs -/

/-- An allowed operation succeeds and keeps the index and the store consistent. -/
theorem Sound.step {op : Op} (h : Sound e) (hallowed : e.Allowed op) : ∃ e', e.step op = .ok e' ∧ Sound e' := by
  cases op with
  | note a => exact h.note hallowed
  | record a result => exact h.record hallowed
  | evict_below below => exact h.evict_below
  | intent request_id fingerprint => exact h.intent hallowed
  | other => exact h.other
  | snapshot => exact h.snapshot
  | prune bound => exact h.prune hallowed
  | restart => exact h.restart

theorem Sound.run {ops : List Op} (h : Sound e) (hallowed : e.AllAllowed ops) :
    ∃ e', e.run ops = .ok e' ∧ Sound e' := by
  induction ops generalizing e with
  | nil => exact ⟨e, rfl, h⟩
  | cons op ops ih =>
    obtain ⟨e₁, hstep, hsound⟩ := h.step hallowed.1
    obtain ⟨e', hrun, hsound'⟩ := ih hsound (hallowed.2 e₁ hstep)
    refine ⟨e', ?_, hsound'⟩
    rw [Engine.run, hstep]
    exact hrun

/-- In every state of a run the maps and instances name the same ids, the store holds one decision an
id, and a lookup answers by the id's status: a retained decision exactly under its fingerprint and a
collision that carries it under another, a collision for an update's id, an error for an attempt with
no decision yet, and nothing for any other id. -/
theorem run_lookups {ops : List Op} (h : AllAllowed {} ops) : ∃ e, run {} ops = .ok e ∧
    Consistent e.decisions ∧ ((decisionsOf e.rows).map (·.2.request_id)).Nodup ∧
    ∀ id text, (e.lookup id text).result e.decisions = e.answer id text ∧
      (e.lookup id text).after e.decisions = e.decisions := by
  obtain ⟨e, hrun, hsound⟩ := sound_init.run h
  obtain ⟨decided, hdescribes, -⟩ := hsound.describes
  exact ⟨e, hrun, hdescribes.consistent, ids_sublist.nodup hsound.ids, fun _ _ => hsound.lookup⟩

instance decidableAllowed (e : Engine) : ∀ op, Decidable (e.Allowed op)
  | .note _ | .record _ _ | .intent _ _ | .prune _ => by
    unfold Allowed
    infer_instance
  | .evict_below _ | .other | .snapshot | .restart => isTrue trivial

instance decidableAllAllowed : ∀ (e : Engine) (ops : List Op), Decidable (AllAllowed e ops)
  | _, [] => isTrue trivial
  | e, op :: ops =>
    match hstep : e.step op with
    | .error _ => decidable_of_iff (e.Allowed op) ⟨fun h => ⟨h, fun _ he' => nomatch hstep.symm.trans he'⟩, And.left⟩
    | .ok e' =>
      have := decidableAllAllowed e' ops
      decidable_of_iff (e.Allowed op ∧ AllAllowed e' ops)
        ⟨fun h => ⟨h.1, fun _ he => Except.ok.inj (hstep.symm.trans he) ▸ h.2⟩, fun h => ⟨h.1, h.2 e' hstep⟩⟩

/-- An admission, a second one in flight over a snapshot and a restart, and retention. -/
def sampleOps : List Op :=
  let a : Attempt := { index := 1, request_id := "r", fingerprint := "f" }
  let b : Attempt := { index := 2, request_id := "s", fingerprint := "g" }
  [.note a, .record a { index := 1, request_id := "r", decision := .applied }, .other, .snapshot,
    .note b, .restart, .note b, .record b { index := 2, request_id := "s", decision := .rejected },
    .intent "u" "h", .prune 2, .evict_below 2]

theorem run_lookups_sample : ∃ e, run {} sampleOps = .ok e ∧ Consistent e.decisions ∧
    ((decisionsOf e.rows).map (·.2.request_id)).Nodup ∧
    ∀ id text, (e.lookup id text).result e.decisions = e.answer id text ∧
      (e.lookup id text).after e.decisions = e.decisions :=
  run_lookups (by decide +kernel)

/-- An admitted id with no decision yet, and an update's id, answer with no decision to carry. -/
theorem lookup_without_decision :
    (AllAllowed {} [.note { index := 1, request_id := "r", fingerprint := "f" }] ∧
      (run {} [.note { index := 1, request_id := "r", fingerprint := "f" }]).toOption.any
        (fun e => decide ((e.lookup "r" "f").result e.decisions = .error (.undecided "r") ∧
          (e.lookup "r" "g").result e.decisions = .error (.collision "r" none))) = true) ∧
    AllAllowed {} [.intent "u" "f"] ∧
      (run {} [.intent "u" "f"]).toOption.any
        (fun e => decide ((e.lookup "u" "f").result e.decisions = .error (.collision "u" none))) = true := by
  decide +kernel

end Engine

end Dsl41.Admission
