import Dsl41.Runner.StoreRows

/-!
# The calls of the two stores

Each call against two stores that hold the same rows: it returns the same or raises an error of
the same class, and the rows are the same afterwards.
-/

namespace Dsl41.Runner

open Infra Infra.Json Canon

variable {α β : Type} {m : MemoryStore} {d : SqliteStore}

/-! ## Computations that answer alike -/

/-- The computation answers or raises alike in both stores, and changes neither where it raises. -/
structure Alike {α : Type} (M : Effect Error MemoryStore α) (D : Effect Error SqliteStore α)
    (m : MemoryStore) (d : SqliteStore) : Prop where
  result : (M.result m).mapError Error.cls = (D.result d).mapError Error.cls
  unchanged : ∀ e, M.result m = .error e → M.after m = m ∧ D.after d = d

/-- Alike, and the invariant is kept. -/
structure Matches (M : Effect Error MemoryStore α) (D : Effect Error SqliteStore α)
    (m : MemoryStore) (d : SqliteStore) : Prop extends Alike M D m d where
  agree : Agree (M.after m) (D.after d)

section Matches

variable {M : Effect Error MemoryStore α} {D : Effect Error SqliteStore α}

theorem map_result {ε σ : Type} (f : α → β) (E : Effect ε σ α) (s : σ) :
    (f <$> E).result s = (E.result s).map f := by
  rw [map_eq_pure_bind, Effect.result_bind]
  cases E.result s with
  | error e => rfl
  | ok a => rfl

theorem map_after {ε σ : Type} (f : α → β) (E : Effect ε σ α) (s : σ) :
    (f <$> E).after s = E.after s := by
  rw [map_eq_pure_bind, Effect.after_bind_pure]

theorem Matches.map (h : Matches M D m d) (f : α → β) : Matches (f <$> M) (f <$> D) m d where
  result := by
    have hr := h.result
    rw [map_result, map_result]
    cases hM : M.result m with
    | error e =>
      cases hD : D.result d with
      | error e' => rw [hM, hD] at hr; exact congrArg Except.error (Except.error.inj hr)
      | ok b => rw [hM, hD] at hr; cases hr
    | ok a =>
      cases hD : D.result d with
      | error e' => rw [hM, hD] at hr; cases hr
      | ok b => rw [hM, hD] at hr; cases hr; rfl
  unchanged e he := by
    rw [map_after, map_after]
    rw [map_result] at he
    cases hM : M.result m with
    | error e' => exact h.unchanged e' hM
    | ok a => rw [hM] at he; cases he
  agree := by
    rw [map_after, map_after]
    exact h.agree

/-- Both raise, and neither is changed. -/
theorem Matches.raises (h : Agree m d) {e e' : Error} (hcls : e.cls = e'.cls)
    (hM : M.result m = .error e) (hMa : M.after m = m) (hD : D.result d = .error e')
    (hDa : D.after d = d) : Matches M D m d where
  result := by rw [hM, hD]; exact congrArg Except.error hcls
  unchanged _ _ := ⟨hMa, hDa⟩
  agree := by rwa [hMa, hDa]

/-- Both return the same. -/
theorem Matches.returns {a : α} (hM : M.result m = .ok a) (hD : D.result d = .ok a)
    (h : Agree (M.after m) (D.after d)) : Matches M D m d where
  result := by rw [hM, hD]
  unchanged e he := by rw [hM] at he; cases he
  agree := h

/-- Both read the same. -/
theorem Matches.asks {f : MemoryStore → Except Error α} {g : SqliteStore → Except Error α}
    (h : Agree m d) (hr : f m = g d) : Matches (Effect.asks f) (Effect.asks g) m d where
  result := congrArg (Except.mapError Error.cls) hr
  unchanged _ _ := ⟨rfl, rfl⟩
  agree := h

/-- What is read off the arguments is read alike. -/
theorem Matches.ofExcept {x : Except Error β} {F : β → Effect Error MemoryStore α}
    {G : β → Effect Error SqliteStore α} (h : Agree m d)
    (hx : ∀ b, x = .ok b → Matches (F b) (G b) m d) :
    Matches (Effect.ofExcept x >>= F) (Effect.ofExcept x >>= G) m d := by
  cases x with
  | error e => exact .raises h rfl rfl rfl rfl rfl
  | ok b =>
    have hb : Matches (F b) (G b) m d := hx b rfl
    exact ⟨⟨hb.result, hb.unchanged⟩, hb.agree⟩

end Matches

/-! ## Encoded rows -/

section Encode

variable {r : Record} {row : Encoded} {value : Str} {what : List Char}

theorem text_ok (h : text value what = .ok ()) : isScalarString value = true := by
  unfold text at h
  split at h
  · assumption
  · cases h

theorem optionalText_ok {value : Option Str} (h : optionalText value what = .ok ()) :
    ∀ s ∈ value, isScalarString s = true := by
  rintro s ⟨⟩
  exact text_ok h

/-- What the encoder let through has header texts of Unicode scalar values. -/
theorem encode_scalar (h : encode r = .ok row) : row.Scalar := by
  unfold encode at h
  obtain ⟨⟨⟩, hkind, h⟩ := bind_eq_ok.mp h
  obtain ⟨⟨⟩, -, h⟩ := bind_eq_ok.mp h
  obtain ⟨⟨⟩, hactor, h⟩ := bind_eq_ok.mp h
  obtain ⟨⟨⟩, hrequest, h⟩ := bind_eq_ok.mp h
  obtain ⟨at_utc, -, h⟩ := bind_eq_ok.mp h
  obtain ⟨payload, -, h⟩ := bind_eq_ok.mp h
  cases h
  exact ⟨text_ok hkind, optionalText_ok hactor, optionalText_ok hrequest⟩

end Encode

/-! ## The journal -/

section Journal

theorem bindText_ok {s : Str} (h : isScalarString s = true) : bindText s = .ok s := if_pos h

theorem bindOptional_ok : ∀ {value : Option Str}, (∀ s ∈ value, isScalarString s = true) →
    bindOptional value = .ok value
  | none, _ => rfl
  | some s, h => by
    rw [bindOptional, bindText_ok (h s rfl)]
    rfl

theorem bindInt_ok {i : Int} (h : Int64Range i) : bindInt i = .ok i := if_pos h

/-- A database with one more journal row. -/
def SqliteStore.push (d : SqliteStore) (row : Encoded) : SqliteStore :=
  { d with
    journal := d.journal ++ [(d.lastSeq + 1, row)]
    sequence := some (d.lastSeq + 1) }

@[simp] theorem SqliteStore.lastSeq_push (row : Encoded) : (d.push row).lastSeq = d.lastSeq + 1 := rfl

theorem insertJournal_taken {row : Encoded} (hrow : row.Scalar) (hroom : Int64Range (d.lastSeq + 1))
    {id : Str} (hid : row.request_id = some id)
    (htaken : some id ∈ d.journal.map fun r => r.2.request_id) :
    (SqliteStore.insertJournal row).result d = .error .integrityError ∧
      (SqliteStore.insertJournal row).after d = d := by
  obtain ⟨hkind, hactor, hrequest⟩ := hrow
  have hheld : row.request_id ≠ none ∧ row.request_id ∈ d.journal.map fun r => r.2.request_id :=
    ⟨Option.ne_none_iff_exists'.mpr ⟨id, hid⟩, hid ▸ htaken⟩
  simp only [SqliteStore.insertJournal, bindText_ok hkind, bindOptional_ok hactor,
    bindOptional_ok hrequest, Effect.result_bind, Effect.after_bind, Effect.result_ofExcept,
    Effect.after_ofExcept, Effect.result_get, Effect.after_get, if_neg (not_not_intro hroom),
    if_pos hheld]
  exact ⟨rfl, rfl⟩

theorem insertJournal_free {row : Encoded} (hrow : row.Scalar) (hroom : Int64Range (d.lastSeq + 1))
    (hfree : ∀ id ∈ row.request_id, some id ∉ d.journal.map fun r => r.2.request_id) :
    (SqliteStore.insertJournal row).result d = .ok () ∧
      (SqliteStore.insertJournal row).after d = d.push row := by
  obtain ⟨hkind, hactor, hrequest⟩ := hrow
  have hnot : ¬(row.request_id ≠ none ∧ row.request_id ∈ d.journal.map fun r => r.2.request_id) := by
    rintro ⟨hne, hmem⟩
    obtain ⟨id, hid⟩ := Option.ne_none_iff_exists'.mp hne
    exact hfree id hid (hid ▸ hmem)
  simp only [SqliteStore.insertJournal, bindText_ok hkind, bindOptional_ok hactor,
    bindOptional_ok hrequest, Effect.result_bind, Effect.after_bind, Effect.result_ofExcept,
    Effect.after_ofExcept, Effect.result_get, Effect.after_get, if_neg (not_not_intro hroom),
    if_neg hnot]
  exact ⟨rfl, rfl⟩

/-- The requests of a batch are checked against the ids seen, however they are split. -/
theorem checkRequests_congr : ∀ {rows : List Encoded} {R R' : Dict Str MemRow} {seen seen' : List Str},
    (∀ id, R.get? id ≠ none ∨ id ∈ seen ↔ R'.get? id ≠ none ∨ id ∈ seen') →
    MemoryStore.checkRequests R seen rows = MemoryStore.checkRequests R' seen' rows
  | [], _, _, _, _, _ => rfl
  | row :: rows, R, R', seen, seen', h => by
    rw [MemoryStore.checkRequests, MemoryStore.checkRequests]
    cases row.request_id with
    | none => exact checkRequests_congr h
    | some id =>
      simp only [h id]
      split
      · rfl
      · refine checkRequests_congr fun x => ?_
        rw [List.mem_cons, List.mem_cons, or_left_comm, h x, or_left_comm]

/-- The requests are checked as if a row of a free id were in the journal. -/
theorem checkRequests_push {row : Encoded} {rows : List Encoded}
    (hfree : ∀ id ∈ row.request_id, m.requests.get? id = none) :
    MemoryStore.checkRequests m.requests [] (row :: rows) =
      MemoryStore.checkRequests (m.push row).requests [] rows := by
  rw [MemoryStore.checkRequests]
  cases hid : row.request_id with
  | none => simp only [MemoryStore.push, hid]
  | some id =>
    simp only [hfree id hid, ne_eq, not_true_eq_false, List.not_mem_nil, or_self, if_false]
    refine checkRequests_congr fun x => ?_
    simp only [MemoryStore.push, hid, Dict.get?_set, List.mem_singleton, List.not_mem_nil, or_false]
    by_cases hx : x = id <;> simp [hx]

/-- The index has the rows that hold an id, each under its id. -/
def MemoryStore.Indexed (m : MemoryStore) : Prop :=
  ∀ id r, m.requests.get? id = some r ↔ r ∈ m.rows ∧ r.2.request_id = some id

theorem MemoryStore.Indexed.push (h : m.Indexed) {row : Encoded}
    (hfree : ∀ id ∈ row.request_id, m.requests.get? id = none) : (m.push row).Indexed := by
  intro id r
  have hrows : (m.push row).rows = m.rows ++ [(m.next_seq, row)] := rfl
  rw [hrows, List.mem_append, List.mem_singleton]
  cases hid : row.request_id with
  | none =>
    have hrequests : (m.push row).requests = m.requests := by rw [MemoryStore.push, hid]
    rw [hrequests, h id r]
    refine and_congr_left fun hr => ⟨Or.inl, fun hmem => hmem.resolve_right ?_⟩
    rintro rfl
    rw [hid] at hr
    cases hr
  | some rid =>
    have hrequests : (m.push row).requests = m.requests.set rid (m.next_seq, row) := by
      rw [MemoryStore.push, hid]
    rw [hrequests, Dict.get?_set]
    split
    · next heq =>
      subst heq
      rw [Option.some.injEq]
      constructor
      · rintro rfl
        exact ⟨Or.inr rfl, hid⟩
      · rintro ⟨hmem | rfl, hr⟩
        · have htaken := (h id r).mpr ⟨hmem, hr⟩
          rw [hfree id hid] at htaken
          cases htaken
        · rfl
    · next hne =>
      rw [h id r]
      refine and_congr_left fun hr => ⟨Or.inl, fun hmem => hmem.resolve_right ?_⟩
      rintro rfl
      rw [hid] at hr
      exact hne (Option.some.inj hr).symm

/-- One row more in both. -/
theorem Agree.push (h : Agree m d) {row : Encoded} (hroom : d.lastSeq + 1 < 2 ^ 63)
    (hfree : ∀ id ∈ row.request_id, m.requests.get? id = none) : Agree (m.push row) (d.push row) where
  journal := by
    show m.rows ++ [(m.next_seq, row)] = d.journal ++ [(d.lastSeq + 1, row)]
    rw [h.journal, h.nextSeq]
  last := by
    show m.next_seq + 1 - 1 = d.lastSeq + 1
    rw [h.nextSeq]
    omega
  configs := h.configs
  snapshots := h.snapshots
  ordered := h.ordered.push fun r hr => Int.lt_add_one_of_le (h.seqs r hr).2
  seqs r hr := by
    have hlow := h.room.1
    rcases List.mem_append.mp hr with hr | hr
    · have := h.seqs r hr
      rw [SqliteStore.lastSeq_push]
      omega
    · rw [List.mem_singleton.mp hr, SqliteStore.lastSeq_push]
      exact ⟨by show 0 < d.lastSeq + 1; omega, le_rfl⟩
  room := by
    have hlow := h.room.1
    rw [SqliteStore.lastSeq_push]
    omega
  requests id r := by
    have hpush := MemoryStore.Indexed.push (fun id r => h.journal ▸ h.requests id r) hfree id r
    rw [hpush]
    show r ∈ m.rows ++ [(m.next_seq, row)] ∧ _ ↔ r ∈ d.journal ++ [(d.lastSeq + 1, row)] ∧ _
    rw [h.journal, h.nextSeq]
  named := h.named
  snapshotsOrdered := h.snapshotsOrdered
  snapshotSeqs r hr := by
    have := h.snapshotSeqs r hr
    rw [SqliteStore.lastSeq_push]
    omega

/-- A batch is written in both stores or refused by both, wherever its first taken id stands. -/
theorem Agree.insertAll (h : Agree m d) {rows : List Encoded} (hrows : ∀ row ∈ rows, row.Scalar)
    (hroom : d.lastSeq + rows.length < 2 ^ 63) :
    (MemoryStore.checkRequests m.requests [] rows = .ok () ∧
      (SqliteStore.insertAll rows).result d = .ok () ∧
      Agree (rows.foldl MemoryStore.push m) ((SqliteStore.insertAll rows).after d)) ∨
    ((∃ id, MemoryStore.checkRequests m.requests [] rows = .error (.storeError (.requestTaken id))) ∧
      (SqliteStore.insertAll rows).result d = .error .integrityError) := by
  induction rows generalizing m d with
  | nil => exact Or.inl ⟨rfl, rfl, h⟩
  | cons row rows ih =>
    obtain ⟨hrow, hrows⟩ := List.forall_mem_cons.mp hrows
    have hlow := h.room.1
    rw [List.length_cons] at hroom
    push_cast at hroom
    have hrange : Int64Range (d.lastSeq + 1) := ⟨by omega, by omega⟩
    by_cases hfree : ∀ id ∈ row.request_id, m.requests.get? id = none
    · obtain ⟨hok, hafter⟩ := insertJournal_free hrow hrange fun id hid hmem =>
        (h.taken_iff id).mpr hmem (hfree id hid)
      rw [checkRequests_push hfree, SqliteStore.insertAll, Effect.result_bind, Effect.after_bind, hok, hafter]
      exact ih (h.push (by omega) hfree) hrows (by rw [SqliteStore.lastSeq_push]; omega)
    · right
      push Not at hfree
      obtain ⟨id, hid, htaken⟩ := hfree
      obtain ⟨herr, -⟩ := insertJournal_taken hrow hrange hid ((h.taken_iff id).mp htaken)
      refine ⟨⟨id, ?_⟩, ?_⟩
      · have hid' : row.request_id = some id := hid
        simp only [MemoryStore.checkRequests, hid']
        exact if_pos (Or.inl htaken)
      · rw [SqliteStore.insertAll, Effect.result_bind, herr]

end Journal

section Journal

theorem SqliteStore.appendRows_eq (d : SqliteStore) (rows : List Encoded) (hne : rows ≠ []) :
    (SqliteStore.appendRows rows).result d = (match (SqliteStore.insertAll rows).result d with
      | .ok _ => .ok ((SqliteStore.insertAll rows).after d).lastSeq
      | .error e => .error (raiseStoreError "journal".toList e)) ∧
    (SqliteStore.appendRows rows).after d = match (SqliteStore.insertAll rows).result d with
      | .ok _ => (SqliteStore.insertAll rows).after d
      | .error _ => d := by
  rw [SqliteStore.appendRows, if_neg hne]
  rw [Effect.result_atomically, Effect.after_atomically, Effect.result_bind, Effect.after_bind,
    Effect.result_mapError, Effect.after_mapError]
  cases (SqliteStore.insertAll rows).result d with
  | error e => exact ⟨rfl, rfl⟩
  | ok u => exact ⟨rfl, rfl⟩

theorem Agree.appendRows (h : Agree m d) {rows : List Encoded} (hrows : ∀ row ∈ rows, row.Scalar)
    (hroom : d.lastSeq + rows.length < 2 ^ 63) :
    Matches (MemoryStore.appendRows rows) (SqliteStore.appendRows rows) m d := by
  have hM := m.appendRows_result rows
  have hMa := m.appendRows_after rows
  cases hrows' : rows with
  | nil =>
    rw [hrows'] at hM hMa
    refine .returns hM (congrArg Except.ok h.last.symm) ?_
    rw [hMa]
    exact h
  | cons row rest =>
    obtain ⟨hD, hDa⟩ := d.appendRows_eq rows (by rw [hrows']; exact List.cons_ne_nil row rest)
    rw [← hrows']
    rcases h.insertAll hrows hroom with ⟨hok, hins, hagree⟩ | ⟨⟨id, herr⟩, hins⟩
    · rw [hok] at hM hMa
      rw [hins] at hD hDa
      refine .returns hM (hD.trans (congrArg Except.ok hagree.last.symm)) ?_
      rw [hMa, hDa]
      exact hagree
    · rw [herr] at hM hMa
      rw [hins] at hD hDa
      refine Matches.raises h ?_ hM hMa hD hDa
      rfl

/-- An append is written in both stores or refused by both. -/
theorem Agree.append (h : Agree m d) {records : List Record}
    (hroom : m.lastSeq + records.length < 2 ^ 63) :
    Matches (MemoryStore.append records) (SqliteStore.append records) m d := by
  refine .ofExcept h fun encoded hencoded => ?_
  refine h.appendRows (fun row hrow => ?_) ?_
  · obtain ⟨r, -, hr⟩ := mem_of_mapM hencoded hrow
    exact encode_scalar hr
  · rw [← (mapM_inv hencoded).length_eq, ← h.last]
    exact hroom

/-- The reading loop of the one store reads the rows after a seq, one by one. -/
theorem MemoryStore.readFrom_loop (h : Ordered m.rows) : ∀ {n : Nat} {seq : Int},
    (rowsAfter seq m.rows).length ≤ n →
    MemoryStore.readFrom.loop m n seq = (rowsAfter seq m.rows).mapM SqliteStore.recordOf
  | 0, seq, hn => by
    rw [List.eq_nil_of_length_eq_zero (Nat.le_zero.mp hn)]
    rfl
  | n + 1, seq, hn => by
    rw [MemoryStore.readFrom.loop, h.getElem?_bisectRight]
    cases hrows : rowsAfter seq m.rows with
    | nil => rfl
    | cons r rows =>
      have hlast : r ∈ ((rowsAfter seq m.rows).take 1).getLast? := by
        rw [hrows]
        rfl
      have hrest : rowsAfter r.1 m.rows = rows := by
        rw [h.rowsAfter_chunk hlast, hrows]
        rfl
      rw [hrows, List.length_cons] at hn
      have ih : MemoryStore.readFrom.loop m n r.1 = _ :=
        MemoryStore.readFrom_loop h (by rw [hrest]; omega)
      rw [hrest] at ih
      rw [List.mapM_cons, SqliteStore.recordOf]
      show (record r.2 >>= fun here => MemoryStore.readFrom.loop m n r.1 >>= fun rest =>
        pure ((r.1, here) :: rest)) = _
      rw [ih]
      cases record r.2 with
      | error e => rfl
      | ok here => rfl

/-- The loop of the other reads them in chunks. -/
theorem SqliteStore.readFrom_loop (h : Ordered d.journal)
    (hint : ∀ r ∈ d.journal, Int64Range r.1) : ∀ {n : Nat} {seq : Int}, Int64Range seq →
    (rowsAfter seq d.journal).length < n →
    SqliteStore.readFrom.loop d n seq = (rowsAfter seq d.journal).mapM SqliteStore.recordOf := by
  intro n
  induction n with
  | zero => exact fun _ hn => absurd hn (Nat.not_lt_zero _)
  | succ n ih =>
    intro seq hseq hn
    rw [SqliteStore.readFrom.loop, bindInt_ok hseq, Infra.ok_bind]
    dsimp only
    cases hlast : ((rowsAfter seq d.journal).take SqliteStore.CHUNK).getLast? with
    | none =>
      have hnil : rowsAfter seq d.journal = [] := by
        have := List.getLast?_eq_none_iff.mp hlast
        rcases List.take_eq_nil_iff.mp this with hzero | hnil
        · cases hzero
        · exact hnil
      rw [hnil]
      rfl
    | some r =>
      have hmem : r ∈ (rowsAfter seq d.journal).take SqliteStore.CHUNK := List.mem_of_getLast? hlast
      have hrest : rowsAfter r.1 d.journal = (rowsAfter seq d.journal).drop SqliteStore.CHUNK :=
        h.rowsAfter_chunk hlast
      have hpos : 0 < (rowsAfter seq d.journal).length :=
        List.length_pos_of_mem (List.mem_of_mem_take hmem)
      have hdrop : (rowsAfter r.1 d.journal).length < n := by
        rw [hrest, List.length_drop, SqliteStore.CHUNK]
        omega
      have hr : Int64Range r.1 := hint r (List.mem_of_mem_filter (List.mem_of_mem_take hmem))
      have ih := ih hr hdrop
      rw [hrest] at ih
      show ((rowsAfter seq d.journal).take SqliteStore.CHUNK).mapM SqliteStore.recordOf >>= (fun here =>
          SqliteStore.readFrom.loop d n r.1 >>= fun rest => pure (here ++ rest)) = _
      rw [ih]
      conv_rhs => rw [← List.take_append_drop SqliteStore.CHUNK (rowsAfter seq d.journal),
        List.mapM_append]

theorem Agree.int64 (h : Agree m d) : ∀ r ∈ d.journal, Int64Range r.1 := by
  intro r hr
  have hseq := h.seqs r hr
  have hroom := h.room
  exact ⟨by omega, by omega⟩

theorem Agree.readFrom (h : Agree m d) {seq : Int} (hseq : Int64Range seq) :
    m.readFrom seq = d.readFrom seq := by
  rw [MemoryStore.readFrom, SqliteStore.readFrom,
    MemoryStore.readFrom_loop (h.journal ▸ h.ordered) (List.length_filter_le _ _),
    SqliteStore.readFrom_loop h.ordered h.int64 hseq
      (Nat.lt_succ_of_le (List.length_filter_le _ _)), h.journal]

theorem Agree.findRequest (h : Agree m d) {request_id : Str}
    (hid : isScalarString request_id = true) :
    m.findRequest request_id = d.findRequest request_id := by
  rw [MemoryStore.findRequest, SqliteStore.findRequest, bindText_ok hid, ← h.find_request]
  rfl

end Journal

/-! ## Configurations -/

section Configs

open SqliteStore (maxRow)

/-- Rows counted from a position on. -/
def numberedFrom {γ : Type} (k : Nat) (l : List γ) : List (Int × γ) :=
  (l.zipIdx k).map fun c => ((c.2 : Int) + 1, c.1)

theorem maxRow_map {γ δ : Type} (f : γ → δ) (rows : List (Int × γ)) :
    maxRow (rows.map fun r => (r.1, f r.2)) = maxRow rows := by
  rw [maxRow, maxRow, List.getLast?_map, Option.map_map]
  rfl

theorem numberedFrom_append {γ : Type} (k : Nat) (l : List γ) (c : γ) :
    numberedFrom k (l ++ [c]) = numberedFrom k l ++ [(((k + l.length : Nat) : Int) + 1, c)] := by
  rw [numberedFrom, List.zipIdx_append, List.map_append]
  rfl

theorem find_numberedFrom {γ : Type} (rev : Int) : ∀ (l : List γ) (k : Nat),
    (numberedFrom k l).find? (fun r => decide (r.1 = rev)) =
      if (k : Int) < rev then l[(rev - 1 - k).toNat]?.map fun c => (rev, c) else none
  | [], k => by simp [numberedFrom]
  | c :: l, k => by
    have ih := find_numberedFrom rev l (k + 1)
    have hcons : numberedFrom k (c :: l) = ((k : Int) + 1, c) :: numberedFrom (k + 1) l := rfl
    rw [hcons, List.find?_cons]
    by_cases hrev : (k : Int) + 1 = rev
    · have hzero : (rev - 1 - (k : Int)).toNat = 0 := by omega
      rw [if_pos (by omega), hzero, ← hrev]
      simp
    · rw [decide_eq_false hrev, ih]
      by_cases hlt : (k : Int) < rev
      · have hsucc : (rev - 1 - (k : Int)).toNat = (rev - 1 - ((k + 1 : Nat) : Int)).toNat + 1 := by
          omega
        rw [if_pos (by omega), if_pos hlt, hsucc, List.getElem?_cons_succ]
      · rw [if_neg (by omega), if_neg hlt]

theorem Agree.maxRow_configs (h : Agree m d) : (maxRow d.configs).getD 0 = m.configs.length := by
  have hmap : maxRow (d.configs.map fun r => (r.1, r.2.held)) = maxRow d.configs :=
    maxRow_map ConfigRow.held d.configs
  rw [← hmap, ← h.configs, MemoryStore.numbered, maxRow, List.getLast?_map, Option.map_map]
  rcases List.eq_nil_or_concat m.configs with hnil | ⟨init, c, hconcat⟩
  · rw [hnil]
    rfl
  · rw [hconcat, List.concat_eq_append, List.zipIdx_append]
    simp

theorem Agree.putConfig (h : Agree m d) {data : ByteArray} {digest : Str}
    (hdigest : isScalarString digest = true) (hroom : (m.configs.length : Int) + 1 < 2 ^ 63) :
    Matches (MemoryStore.putConfig data digest) (SqliteStore.putConfig data digest) m d := by
  have hrange : Int64Range ((maxRow d.configs).getD 0 + 1) := by
    rw [h.maxRow_configs]
    exact ⟨by omega, hroom⟩
  have hM : (MemoryStore.putConfig data digest).result m = .ok ((m.configs.length : Int) + 1) := by
    show Except.ok (((m.configs ++ [(data, digest)]).length : Nat) : Int) = _
    rw [List.length_append, List.length_singleton]
    rfl
  have hins : (SqliteStore.insertConfig data digest).result d = .ok ((m.configs.length : Int) + 1) ∧
      (SqliteStore.insertConfig data digest).after d = { d with
        configs := d.configs ++
          [((m.configs.length : Int) + 1, { at_utc := d.journalTime, digest, data })] } := by
    rw [← h.maxRow_configs]
    simp only [SqliteStore.insertConfig, bindText_ok hdigest, Effect.result_bind, Effect.after_bind,
      Effect.result_ofExcept, Effect.after_ofExcept, Effect.result_get, Effect.after_get,
      if_neg (not_not_intro hrange)]
    exact ⟨rfl, rfl⟩
  have hD : (SqliteStore.putConfig data digest).result d = .ok ((m.configs.length : Int) + 1) := by
    rw [SqliteStore.putConfig, Effect.result_atomically, Effect.result_mapError, hins.1]
    rfl
  have hDa : (SqliteStore.putConfig data digest).after d =
      (SqliteStore.insertConfig data digest).after d := by
    rw [SqliteStore.putConfig, Effect.after_atomically, Effect.result_mapError, Effect.after_mapError,
      hins.1]
    rfl
  refine .returns hM hD ?_
  rw [hDa, hins.2]
  exact { h with
    configs := by
      show numberedFrom 0 (m.configs ++ [(data, digest)]) =
        (d.configs ++ [((m.configs.length : Int) + 1, _)]).map
          fun r : Int × ConfigRow => (r.1, r.2.held)
      have hconfigs : numberedFrom 0 m.configs = d.configs.map fun r => (r.1, r.2.held) := h.configs
      rw [numberedFrom_append, hconfigs, List.map_append, Nat.zero_add]
      rfl }

theorem MemoryStore.findConfig_loop (digest : Str) : ∀ n : Nat, n ≤ m.configs.length →
    MemoryStore.findConfig.loop m digest n =
      maxRow ((numberedFrom 0 (m.configs.take n)).filter fun r => decide (r.2.2 = digest))
  | 0, _ => rfl
  | n + 1, hn => by
    have hlt : n < m.configs.length := hn
    have htake : m.configs.take (n + 1) = m.configs.take n ++ [m.configs[n]] := List.take_succ_eq_append_getElem hlt
    have hlen : (m.configs.take n).length = n := by rw [List.length_take]; omega
    rw [MemoryStore.findConfig.loop, List.getElem?_eq_getElem hlt, htake, numberedFrom_append,
      List.filter_append, hlen, Nat.zero_add]
    by_cases hheld : (m.configs[n]).2 = digest
    · have hone : [((n : Int) + 1, m.configs[n])].filter (fun r => decide (r.2.2 = digest)) =
          [((n : Int) + 1, m.configs[n])] := by simp [hheld]
      rw [hone, maxRow, List.getLast?_append]
      simp [hheld]
    · have hnone : [((n : Int) + 1, m.configs[n])].filter (fun r => decide (r.2.2 = digest)) = [] := by
        simp [hheld]
      rw [hnone, List.append_nil, ← MemoryStore.findConfig_loop digest n (Nat.le_of_lt hlt)]
      simp [hheld]

theorem Agree.findConfig (h : Agree m d) {digest : Str} (hdigest : isScalarString digest = true) :
    .ok (m.findConfig digest) = d.findConfig digest := by
  have hfilter : (d.configs.map fun r => (r.1, r.2.held)).filter (fun r => decide (r.2.2 = digest)) =
      (d.configs.filter fun r => decide (r.2.digest = digest)).map fun r => (r.1, r.2.held) := by
    rw [List.filter_map]
    rfl
  rw [SqliteStore.findConfig, bindText_ok hdigest, MemoryStore.findConfig,
    MemoryStore.findConfig_loop digest _ (Nat.le_refl _), List.take_length]
  have hconfigs : numberedFrom 0 m.configs = d.configs.map fun r => (r.1, r.2.held) := h.configs
  rw [hconfigs, hfilter, maxRow_map]
  rfl

theorem Agree.getConfig (h : Agree m d) {rev : Int} (hrev : Int64Range rev) :
    m.getConfig rev = d.getConfig rev := by
  have hfind := find_numberedFrom rev m.configs 0
  have hconfigs : numberedFrom 0 m.configs = d.configs.map fun r => (r.1, r.2.held) := h.configs
  have hmap : (d.configs.map fun r => (r.1, r.2.held)).find? (fun r => decide (r.1 = rev)) =
      (d.configs.find? fun r => decide (r.1 = rev)).map fun r => (r.1, r.2.held) := by
    rw [List.find?_map]
    rfl
  have hzero : rev - 1 - ((0 : Nat) : Int) = rev - 1 := by omega
  rw [hconfigs, hmap, hzero] at hfind
  have hD : d.getConfig rev = (d.configs.find? fun r => decide (r.1 = rev)).elim
      (.error (.keyError (.inr rev))) fun r => .ok r.2.data := by
    rw [SqliteStore.getConfig, bindInt_ok hrev, Infra.ok_bind]
    cases d.configs.find? fun r => decide (r.1 = rev) with
    | none => rfl
    | some r => rfl
  rw [hD, MemoryStore.getConfig]
  by_cases hin : 1 ≤ rev ∧ rev ≤ m.configs.length
  · have hlt : (rev - 1).toNat < m.configs.length := by omega
    rw [if_pos (by omega), List.getElem?_eq_getElem hlt] at hfind
    rw [if_pos hin, List.getElem?_eq_getElem hlt]
    obtain ⟨r, hr, heq⟩ := Option.map_eq_some_iff.mp hfind
    rw [hr]
    have hdata : r.2.held = m.configs[(rev - 1).toNat] := (Prod.mk.inj heq).2
    show Except.ok (m.configs[(rev - 1).toNat]).1 = Except.ok r.2.data
    rw [← hdata]
    rfl
  · have hnone : d.configs.find? (fun r => decide (r.1 = rev)) = none := by
      rw [← Option.map_eq_none_iff, hfind]
      split
      · next hpos =>
        rw [List.getElem?_eq_none (by omega)]
        rfl
      · rfl
    rw [if_neg hin, hnone, Option.elim_none]

theorem Agree.currentConfigRev (h : Agree m d) : m.currentConfigRev = d.currentConfigRev :=
  h.maxRow_configs.symm

end Configs

/-! ## Snapshots -/

section Snapshots

open SqliteStore (maxRow)

theorem Agree.mem_snapshots (h : Agree m d) {seq : Int} :
    m.snapshots.get? seq ≠ none ↔ seq ∈ d.snapshots.map Prod.fst := by
  rw [Option.ne_none_iff_exists', List.mem_map]
  constructor
  · rintro ⟨s, hs⟩
    obtain ⟨r, hr, hseq, -⟩ := h.snapshot_iff.mp hs
    exact ⟨r, hr, hseq⟩
  · rintro ⟨r, hr, hseq⟩
    exact ⟨_, h.snapshot_iff.mpr ⟨r, hr, hseq, rfl⟩⟩

/-- One snapshot more in both. -/
theorem Agree.pushSnapshot (h : Agree m d) (row : SnapshotRow) {seq : Int}
    (hnew : seq ∉ d.snapshots.map Prod.fst) (hlow : -2 ^ 63 ≤ seq) (hhigh : seq ≤ d.lastSeq) :
    Agree { m with snapshots := m.snapshots.set seq (row.read seq) }
      { d with
        snapshots := d.snapshots.filter (fun r => decide (r.1 ≤ seq)) ++
          (seq, row) :: rowsAfter seq d.snapshots } := by
  have hkey : seq ∉ m.snapshots.keys := fun hk => by
    obtain ⟨s, hs⟩ := Dict.mem_keys.mp hk
    exact hnew (h.mem_snapshots.mp (Option.ne_none_iff_exists'.mpr ⟨s, hs⟩))
  have hbelow : ∀ r ∈ d.snapshots.filter (fun r => decide (r.1 ≤ seq)), r.1 < seq := by
    intro r hr
    obtain ⟨hr, hle⟩ := List.mem_filter.mp hr
    have hne : r.1 ≠ seq := fun heq => hnew (List.mem_map.mpr ⟨r, hr, heq⟩)
    have hle : r.1 ≤ seq := by simpa using hle
    omega
  have habove : ∀ r ∈ rowsAfter seq d.snapshots, seq < r.1 := fun r hr => by
    simpa using (List.mem_filter.mp hr).2
  refine { h with snapshots := ?_, named := ?_, snapshotsOrdered := ?_, snapshotSeqs := ?_ }
  · have hperm : (d.snapshots.filter (fun r => decide (r.1 ≤ seq)) ++
        (seq, row) :: rowsAfter seq d.snapshots).Perm ((seq, row) :: d.snapshots) := by
      refine List.perm_middle.trans ?_
      rw [h.snapshotsOrdered.split]
    show ((m.snapshots.set seq (row.read seq)).entries.map Prod.snd).Perm _
    rw [Dict.entries_set hkey, List.map_append]
    refine ((List.perm_append_comm).trans ?_).trans (hperm.symm.map _)
    exact h.snapshots.cons (row.read seq)
  · intro k s hs
    rw [Dict.get?_set] at hs
    split at hs
    · next heq =>
      cases hs
      exact heq.symm
    · exact h.named k s hs
  · refine List.pairwise_append.mpr ⟨h.snapshotsOrdered.filter _, ?_, ?_⟩
    · exact List.pairwise_cons.mpr ⟨habove, h.snapshotsOrdered.filter _⟩
    · intro r hr r' hr'
      rcases List.mem_cons.mp hr' with rfl | hr'
      · exact hbelow r hr
      · exact lt_trans (hbelow r hr) (habove r' hr')
  · intro r hr
    rcases List.mem_append.mp hr with hr | hr
    · exact h.snapshotSeqs r (List.mem_of_mem_filter hr)
    · rcases List.mem_cons.mp hr with rfl | hr
      · exact ⟨hlow, hhigh⟩
      · exact h.snapshotSeqs r (List.mem_of_mem_filter hr)

theorem SqliteStore.putSnapshot_within {seq : Int} (hwithin : ¬seq > d.lastSeq) (state_version : Int)
    (data : ByteArray) :
    (SqliteStore.putSnapshot seq state_version data).result d =
        ((SqliteStore.insertSnapshot seq state_version data).result d).mapError
          (raiseStoreError "snapshots".toList) ∧
      (SqliteStore.putSnapshot seq state_version data).after d =
        match (SqliteStore.insertSnapshot seq state_version data).result d with
        | .ok _ => (SqliteStore.insertSnapshot seq state_version data).after d
        | .error _ => d := by
  rw [SqliteStore.putSnapshot, Effect.result_atomically, Effect.after_atomically,
    Effect.result_bind, Effect.after_bind]
  simp only [Effect.result_get, Effect.after_get, if_neg hwithin, Effect.result_mapError,
    Effect.after_mapError]
  cases (SqliteStore.insertSnapshot seq state_version data).result d with
  | error e => exact ⟨trivial, rfl⟩
  | ok u => exact ⟨trivial, rfl⟩

theorem Agree.putSnapshot (h : Agree m d) {seq state_version : Int} {data : ByteArray}
    (hfits : seq ≤ m.lastSeq → -2 ^ 63 ≤ seq ∧ Int64Range state_version) :
    Matches (MemoryStore.putSnapshot seq state_version data)
      (SqliteStore.putSnapshot seq state_version data) m d := by
  have hlast := h.last
  have hroom := h.room
  by_cases habove : seq > d.lastSeq
  · have hfree : m.snapshots.get? seq = none := by
      by_contra htaken
      obtain ⟨r, hr, heq⟩ := List.mem_map.mp (h.mem_snapshots.mp htaken)
      have := (h.snapshotSeqs r hr).2
      omega
    have hD : (SqliteStore.putSnapshot seq state_version data).result d =
        .error (.storeError (.snapshotAbove seq d.lastSeq)) := by
      rw [SqliteStore.putSnapshot, Effect.result_atomically, Effect.result_bind]
      simp only [Effect.result_get, Effect.after_get, if_pos habove]
      rfl
    have hM : (MemoryStore.putSnapshot seq state_version data).result m =
          .error (.storeError (.snapshotAbove seq m.lastSeq)) ∧
        (MemoryStore.putSnapshot seq state_version data).after m = m := by
      simp only [MemoryStore.putSnapshot, Effect.result_bind, Effect.after_bind, Effect.result_get,
        Effect.after_get, if_neg (not_not_intro hfree), hlast, if_pos habove]
      exact ⟨rfl, rfl⟩
    refine Matches.raises h ?_ hM.1 hM.2 hD ?_
    · rfl
    · rw [SqliteStore.putSnapshot, Effect.after_atomically]
      rw [SqliteStore.putSnapshot, Effect.result_atomically] at hD
      rw [hD]
  · obtain ⟨hlow, hversion⟩ := hfits (by omega)
    have hseq : Int64Range seq := ⟨hlow, by omega⟩
    have hput := SqliteStore.putSnapshot_within habove state_version data
    by_cases htaken : seq ∈ d.snapshots.map Prod.fst
    · have hins : (SqliteStore.insertSnapshot seq state_version data).result d =
          .error .integrityError := by
        simp only [SqliteStore.insertSnapshot, bindInt_ok hseq, bindInt_ok hversion,
          Effect.result_bind, Effect.result_ofExcept, Effect.after_ofExcept, Effect.result_get,
          Effect.after_get, if_pos htaken]
        rfl
      have hM : (MemoryStore.putSnapshot seq state_version data).result m =
            .error (.storeError (.snapshotTaken seq)) ∧
          (MemoryStore.putSnapshot seq state_version data).after m = m := by
        simp only [MemoryStore.putSnapshot, Effect.result_bind, Effect.after_bind,
          Effect.result_get, Effect.after_get, if_pos (h.mem_snapshots.mpr htaken)]
        exact ⟨rfl, rfl⟩
      rw [hins] at hput
      refine Matches.raises h ?_ hM.1 hM.2 hput.1 hput.2
      rfl
    · have hfree : ¬m.snapshots.get? seq ≠ none := fun hne => htaken (h.mem_snapshots.mp hne)
      have hins : (SqliteStore.insertSnapshot seq state_version data).result d = .ok () ∧
          (SqliteStore.insertSnapshot seq state_version data).after d = { d with
            snapshots := d.snapshots.filter (fun r => decide (r.1 ≤ seq)) ++
              (seq, { at_utc := d.journalTime, state_version, data }) ::
                rowsAfter seq d.snapshots } := by
        simp only [SqliteStore.insertSnapshot, bindInt_ok hseq, bindInt_ok hversion,
          Effect.result_bind, Effect.after_bind, Effect.result_ofExcept, Effect.after_ofExcept,
          Effect.result_get, Effect.after_get, if_neg htaken]
        exact ⟨rfl, rfl⟩
      have hM : (MemoryStore.putSnapshot seq state_version data).result m = .ok () ∧
          (MemoryStore.putSnapshot seq state_version data).after m =
            { m with snapshots := m.snapshots.set seq { seq, state_version, data } } := by
        simp only [MemoryStore.putSnapshot, Effect.result_bind, Effect.after_bind,
          Effect.result_get, Effect.after_get, if_neg hfree, hlast, if_neg habove]
        exact ⟨rfl, rfl⟩
      rw [hins.1] at hput
      have hDa : (SqliteStore.putSnapshot seq state_version data).after d = _ := hput.2.trans hins.2
      refine .returns hM.1 hput.1 ?_
      rw [hM.2, hDa]
      exact h.pushSnapshot { at_utc := d.journalTime, state_version, data } htaken hlow (by omega)

/-! ## Pruning -/

/-- Both keep the latest two snapshots. -/
theorem Agree.retainSnapshots (h : Agree m d) : Agree m.retainSnapshots d.retainSnapshots := by
  have hentries : m.retainSnapshots.snapshots.entries =
      m.snapshots.entries.filter fun e => decide (e.1 ∉ m.sortedSnapshots.dropLast.dropLast) :=
    entries_foldl_erase
  have hvalues : m.retainSnapshots.snapshots.entries.map Prod.snd =
      (m.snapshots.entries.map Prod.snd).filter
        fun s => decide (s.seq ∉ m.sortedSnapshots.dropLast.dropLast) := by
    rw [hentries, List.filter_map]
    congr 1
    refine List.filter_congr fun e he => ?_
    have hname : e.2.seq = e.1 := h.named e.1 e.2 (Dict.get?_eq_some.mpr he)
    rw [Function.comp_apply, hname]
  have hkept : ∀ r ∈ d.snapshots, r.1 ∈ d.newestSnapshots ↔
      r.1 ∉ m.sortedSnapshots.dropLast.dropLast := by
    intro r hr
    have hnodup : (d.snapshots.map Prod.fst).Nodup := h.keys_sorted.imp ne_of_lt
    have hnewest : d.newestSnapshots = (d.snapshots.map Prod.fst).reverse.take 2 := by
      rw [SqliteStore.newestSnapshots, List.map_take, List.map_reverse]
    rw [h.sortedSnapshots, mem_dropLast_dropLast hnodup (List.mem_map.mpr ⟨r, hr, rfl⟩), hnewest,
      not_not]
  refine { h with snapshots := ?_, named := ?_, snapshotsOrdered := ?_, snapshotSeqs := ?_ }
  · rw [hvalues]
    refine (h.snapshots.filter _).trans ?_
    rw [List.filter_map]
    refine List.Perm.of_eq (congrArg (List.map _) (List.filter_congr fun r hr => ?_))
    exact decide_eq_decide.mpr (hkept r hr).symm
  · intro k s hs
    have hmem := Dict.get?_eq_some.mp hs
    rw [hentries] at hmem
    exact h.named k s (Dict.get?_eq_some.mpr (List.mem_of_mem_filter hmem))
  · exact h.snapshotsOrdered.filter _
  · exact fun r hr => h.snapshotSeqs r (List.mem_of_mem_filter hr)

/-- Freeing below a bound never misses an id, keeps the rows from the bound on and forgets just
the ids of the others. -/
theorem freeBelow_spec (bound : Int) : ∀ {rows : List MemRow} {s : MemoryStore}, Ordered rows →
    (∀ r ∈ rows, ∀ id, r.2.request_id = some id → s.requests.get? id = some r) →
    (∀ id r, s.requests.get? id = some r → r.2.request_id = some id) →
    (MemoryStore.freeBelow bound rows).result s = .ok (rows.filter fun r => decide (bound ≤ r.1)) ∧
    ∃ requests, (MemoryStore.freeBelow bound rows).after s = { s with requests := requests } ∧
      ∀ id r, requests.get? id = some r ↔
        s.requests.get? id = some r ∧ ¬(r ∈ rows ∧ r.1 < bound)
  | [], s, _, _, _ => ⟨rfl, s.requests, rfl, fun id r => by simp⟩
  | (seq, row) :: rows, s, hordered, hheld, hnames => by
    obtain ⟨hhead, hrows⟩ := List.pairwise_cons.mp hordered
    have hne : ∀ r ∈ rows, r ≠ (seq, row) := by
      rintro r hr rfl
      exact lt_irrefl _ (hhead _ hr)
    by_cases hlt : seq < bound
    · have hfilter : ((seq, row) :: rows).filter (fun r => decide (bound ≤ r.1)) =
          rows.filter fun r => decide (bound ≤ r.1) :=
        List.filter_cons_of_neg (by simpa using hlt)
      rw [hfilter]
      cases hid : row.request_id with
      | none =>
        have ih := freeBelow_spec bound hrows (fun r hr => hheld r (List.mem_cons_of_mem _ hr)) hnames
        obtain ⟨hresult, requests, hafter, hget⟩ := ih
        refine ⟨?_, requests, ?_, ?_⟩
        · simp only [MemoryStore.freeBelow, if_pos hlt, hid]
          exact hresult
        · simp only [MemoryStore.freeBelow, if_pos hlt, hid]
          exact hafter
        · intro id r
          rw [hget id r]
          refine and_congr_right fun hr => not_congr (and_congr_left fun _ => ?_)
          refine ⟨List.mem_cons_of_mem _, fun hmem => (List.mem_cons.mp hmem).resolve_left ?_⟩
          rintro rfl
          have := hnames id _ hr
          rw [hid] at this
          cases this
      | some rid =>
        have hrid : s.requests.get? rid = some (seq, row) :=
          hheld (seq, row) List.mem_cons_self rid hid
        have herase : ∀ id r, (s.requests.erase rid).get? id = some r ↔
            s.requests.get? id = some r ∧ r ≠ (seq, row) := by
          intro id r
          rw [Dict.get?_erase]
          split
          · next heq =>
            subst heq
            rw [hrid, Option.some.injEq]
            exact ⟨by rintro ⟨⟩, fun hr => absurd hr.1.symm hr.2⟩
          · next hneq =>
            refine ⟨fun hr => ⟨hr, ?_⟩, And.left⟩
            rintro rfl
            have := hnames id _ hr
            rw [hid] at this
            exact hneq (Option.some.inj this).symm
        have ih := freeBelow_spec bound (s := { s with requests := s.requests.erase rid }) hrows
          (fun r hr id hrow => (herase id r).mpr ⟨hheld r (List.mem_cons_of_mem _ hr) id hrow, hne r hr⟩)
          fun id r hr => hnames id r ((herase id r).mp hr).1
        obtain ⟨hresult, requests, hafter, hget⟩ := ih
        refine ⟨?_, requests, ?_, ?_⟩
        · simp only [MemoryStore.freeBelow, if_pos hlt, hid, Effect.result_bind, Effect.result_get,
            Effect.after_get, hrid]
          exact hresult
        · simp only [MemoryStore.freeBelow, if_pos hlt, hid, Effect.after_bind, Effect.result_get,
            Effect.after_get, hrid]
          exact hafter
        · intro id r
          rw [hget id r, herase id r, and_assoc]
          refine and_congr_right fun _ => ?_
          constructor
          · rintro ⟨hr, hnot⟩ ⟨hmem, hbelow⟩
            exact hnot ⟨(List.mem_cons.mp hmem).resolve_left hr, hbelow⟩
          · intro hnot
            refine ⟨fun heq => hnot ⟨heq ▸ List.mem_cons_self, heq ▸ hlt⟩, fun hmem => ?_⟩
            exact hnot ⟨List.mem_cons_of_mem _ hmem.1, hmem.2⟩
    · have ih := freeBelow_spec bound hrows (fun r hr => hheld r (List.mem_cons_of_mem _ hr)) hnames
      obtain ⟨hresult, requests, hafter, hget⟩ := ih
      have hfilter : ((seq, row) :: rows).filter (fun r => decide (bound ≤ r.1)) =
          (seq, row) :: rows.filter fun r => decide (bound ≤ r.1) :=
        List.filter_cons_of_pos (by simpa using hlt)
      refine ⟨?_, requests, ?_, ?_⟩
      · simp only [MemoryStore.freeBelow, if_neg hlt, Effect.result_bind, hresult, hfilter]
        rfl
      · simp only [MemoryStore.freeBelow, if_neg hlt, Effect.after_bind, hresult]
        exact hafter
      · intro id r
        rw [hget id r]
        refine and_congr_right fun hr => not_congr (and_congr_left fun hbelow => ?_)
        refine ⟨List.mem_cons_of_mem _, fun hmem => (List.mem_cons.mp hmem).resolve_left ?_⟩
        rintro rfl
        exact hlt hbelow

theorem length_filter_below {γ : Type} (bound : Int) (rows : List (Int × γ)) :
    (rows.filter fun r => decide (bound ≤ r.1)).length +
      (rows.filter fun r => decide (r.1 < bound)).length = rows.length := by
  induction rows with
  | nil => rfl
  | cons r rows ih =>
    rw [List.length_cons]
    by_cases hle : bound ≤ r.1
    · rw [List.filter_cons_of_pos (by simpa using hle), List.filter_cons_of_neg (by simpa using hle),
        List.length_cons]
      omega
    · rw [List.filter_cons_of_neg (by simpa using hle), List.filter_cons_of_pos (by simpa using hle),
        List.length_cons]
      omega

/-- The rows below a bound are deleted, and the index forgets them. -/
theorem MemoryStore.Indexed.deleteBelow (h : m.Indexed) {bound : Int} {requests : Dict Str MemRow}
    (hget : ∀ id r, requests.get? id = some r ↔
      m.requests.get? id = some r ∧ ¬(r ∈ m.rows ∧ r.1 < bound)) :
    Indexed { m with requests := requests, rows := m.rows.filter fun r => decide (bound ≤ r.1) } := by
  intro id r
  rw [hget id r, h id r, List.mem_filter, decide_eq_true_eq]
  constructor
  · rintro ⟨⟨hmem, hid⟩, hnot⟩
    exact ⟨⟨hmem, not_lt.mp fun hlt => hnot ⟨hmem, hlt⟩⟩, hid⟩
  · rintro ⟨⟨hmem, hle⟩, hid⟩
    exact ⟨⟨hmem, hid⟩, fun hlt => absurd hlt.2 (not_lt.mpr hle)⟩

/-- Both delete the rows below a bound. -/
theorem Agree.deleteBelow (h : Agree m d) (bound : Int) {requests : Dict Str MemRow}
    (hget : ∀ id r, requests.get? id = some r ↔
      m.requests.get? id = some r ∧ ¬(r ∈ m.rows ∧ r.1 < bound)) :
    Agree { m with requests := requests, rows := m.rows.filter fun r => decide (bound ≤ r.1) }
      { d with journal := d.journal.filter fun r => decide (bound ≤ r.1) } where
  journal := congrArg (List.filter _) h.journal
  last := h.last
  configs := h.configs
  snapshots := h.snapshots
  ordered := h.ordered.filter _
  seqs r hr := h.seqs r (List.mem_of_mem_filter hr)
  room := h.room
  requests id r := by
    rw [← h.journal]
    exact MemoryStore.Indexed.deleteBelow (fun id r => h.journal ▸ h.requests id r) hget id r
  named := h.named
  snapshotsOrdered := h.snapshotsOrdered
  snapshotSeqs := h.snapshotSeqs

theorem Agree.pruneJournal (h : Agree m d) {seq latest : Int} {older_than : Instant}
    {cutoff : List Char} (hcutoff : stamp older_than = .ok cutoff) (hlow : -2 ^ 63 ≤ seq)
    (hlatest : -2 ^ 63 ≤ latest ∧ latest < 2 ^ 63) :
    ∃ n, (MemoryStore.pruneJournal seq latest older_than).result m = .ok n ∧
      (SqliteStore.pruneJournal seq latest older_than).result d = .ok n ∧
      Agree ((MemoryStore.pruneJournal seq latest older_than).after m)
        ((SqliteStore.pruneJournal seq latest older_than).after d) := by
  have hrecent : MemoryStore.firstRecent cutoff m.rows = d.firstRecent cutoff := by
    rw [MemoryStore.firstRecent, SqliteStore.firstRecent, h.journal]
  have hbound : Int64Range (min (min seq latest) ((d.firstRecent cutoff).getD seq)) := by
    have hpos : -2 ^ 63 ≤ (d.firstRecent cutoff).getD seq := by
      cases hfirst : d.firstRecent cutoff with
      | none => exact hlow
      | some n =>
        obtain ⟨r, hr, rfl⟩ := Option.map_eq_some_iff.mp hfirst
        have := (h.seqs r (List.mem_of_find?_eq_some hr)).1
        show -2 ^ 63 ≤ r.1
        omega
    exact ⟨le_min (le_min hlow hlatest.1) hpos,
      lt_of_le_of_lt ((min_le_left _ _).trans (min_le_right _ _)) hlatest.2⟩
  obtain ⟨hresult, requests, hafter, hget⟩ :=
    freeBelow_spec (min (min seq latest) ((d.firstRecent cutoff).getD seq)) (s := m)
      (h.journal ▸ h.ordered) (fun r hr id hid => (h.requests id r).mpr ⟨h.journal ▸ hr, hid⟩)
      fun id r hr => ((h.requests id r).mp hr).2
  have hsum : (m.rows.filter fun r =>
        decide (min (min seq latest) ((d.firstRecent cutoff).getD seq) ≤ r.1)).length +
      (d.journal.filter fun r =>
        decide (r.1 < min (min seq latest) ((d.firstRecent cutoff).getD seq))).length =
      m.rows.length := by
    rw [h.journal]
    exact length_filter_below _ _
  refine ⟨((d.journal.filter fun r =>
    decide (r.1 < min (min seq latest) ((d.firstRecent cutoff).getD seq))).length : Int), ?_, ?_, ?_⟩
  · simp only [MemoryStore.pruneJournal, hcutoff, Effect.result_bind, Effect.result_ofExcept,
      Effect.after_ofExcept, Effect.result_get, Effect.after_get, hrecent, hresult]
    refine congrArg Except.ok ?_
    omega
  · simp only [SqliteStore.pruneJournal, hcutoff, Effect.result_bind, Effect.result_get,
      Effect.after_get, Effect.result_ofExcept, Effect.after_ofExcept, bindInt_ok hbound]
    rfl
  · simp only [MemoryStore.pruneJournal, SqliteStore.pruneJournal, hcutoff, Effect.after_bind,
      Effect.result_get, Effect.after_get, hrecent, hresult, hafter, Effect.result_ofExcept,
      Effect.after_ofExcept, bindInt_ok hbound]
    exact h.deleteBelow _ hget

/-- Where no snapshot is beyond the newest two, none is deleted. -/
theorem retainSnapshots_eq (h : m.snapshots.entries.length ≤ 2) : m.retainSnapshots = m := by
  have hlen : m.sortedSnapshots.length ≤ 2 := by
    rw [MemoryStore.sortedSnapshots, List.length_insertionSort, Dict.keys, List.length_map]
    exact h
  have hnone : m.sortedSnapshots.dropLast.dropLast = [] := by
    rw [← List.length_eq_zero_iff, List.length_dropLast, List.length_dropLast]
    omega
  rw [MemoryStore.retainSnapshots, hnone]
  rfl

theorem Agree.snapshots_length (h : Agree m d) :
    m.snapshots.entries.length = d.snapshots.length := by
  have hlen := h.snapshots.length_eq
  rwa [List.length_map, List.length_map] at hlen

theorem Agree.pruneBefore (h : Agree m d) {seq : Int} {older_than : Instant}
    (hfits : if older_than.converts then m.snapshots.entries = [] ∨ -2 ^ 63 ≤ seq
      else m.snapshots.entries.length ≤ 2) :
    Matches (MemoryStore.pruneBefore seq older_than) (SqliteStore.pruneBefore seq older_than) m d := by
  have hretain := h.retainSnapshots
  have hlatest := hretain.latestSnapshot
  have hM : (MemoryStore.pruneBefore seq older_than).result m =
      m.retainSnapshots.latestSnapshot.elim (.ok 0) fun latest =>
        (MemoryStore.pruneJournal seq latest.seq older_than).result m.retainSnapshots := by
    simp only [MemoryStore.pruneBefore, Effect.result_bind, Effect.result_modify, Effect.after_modify,
      Effect.result_get, Effect.after_get]
    cases m.retainSnapshots.latestSnapshot with
    | none => rfl
    | some latest => rfl
  have hMa : (MemoryStore.pruneBefore seq older_than).after m =
      m.retainSnapshots.latestSnapshot.elim m.retainSnapshots fun latest =>
        (MemoryStore.pruneJournal seq latest.seq older_than).after m.retainSnapshots := by
    simp only [MemoryStore.pruneBefore, Effect.after_bind, Effect.result_modify, Effect.after_modify,
      Effect.result_get, Effect.after_get]
    cases m.retainSnapshots.latestSnapshot with
    | none => rfl
    | some latest => rfl
  have hB : (SqliteStore.pruneRows seq older_than).result d =
      (maxRow d.retainSnapshots.snapshots).elim (.ok 0) fun latest =>
        (SqliteStore.pruneJournal seq latest older_than).result d.retainSnapshots := by
    simp only [SqliteStore.pruneRows, Effect.result_bind, Effect.result_modify, Effect.after_modify,
      Effect.result_get, Effect.after_get]
    cases maxRow d.retainSnapshots.snapshots with
    | none => rfl
    | some latest => rfl
  have hBa : (SqliteStore.pruneRows seq older_than).after d =
      (maxRow d.retainSnapshots.snapshots).elim d.retainSnapshots fun latest =>
        (SqliteStore.pruneJournal seq latest older_than).after d.retainSnapshots := by
    simp only [SqliteStore.pruneRows, Effect.after_bind, Effect.result_modify, Effect.after_modify,
      Effect.result_get, Effect.after_get]
    cases maxRow d.retainSnapshots.snapshots with
    | none => rfl
    | some latest => rfl
  have hD : (SqliteStore.pruneBefore seq older_than).result d = _ :=
    Effect.result_atomically d (SqliteStore.pruneRows seq older_than)
  have hDa : (SqliteStore.pruneBefore seq older_than).after d = _ :=
    Effect.after_atomically d (SqliteStore.pruneRows seq older_than)
  cases hlast : d.retainSnapshots.snapshots.getLast? with
  | none =>
    rw [hlast, Option.map_none] at hlatest
    rw [maxRow, hlast, Option.map_none] at hB hBa
    rw [hlatest] at hM hMa
    rw [hB] at hD hDa
    refine .returns hM hD ?_
    rw [hMa, hDa, hBa]
    exact hretain
  | some r =>
    rw [hlast, Option.map_some] at hlatest
    rw [maxRow, hlast, Option.map_some] at hB hBa
    rw [hlatest] at hM hMa
    have hr := hretain.snapshotSeqs r (List.mem_of_getLast? hlast)
    have hroom : d.retainSnapshots.lastSeq < 2 ^ 63 := hretain.room.2
    have hheld : m.snapshots.entries ≠ [] := fun hnil => by
      have hempty : d.snapshots = [] := by
        rw [← List.length_eq_zero_iff, ← h.snapshots_length, hnil]
        rfl
      have hmem : r ∈ d.retainSnapshots.snapshots := List.mem_of_getLast? hlast
      rw [SqliteStore.retainSnapshots, hempty] at hmem
      cases hmem
    cases hstamp : stamp older_than with
    | error e =>
      have hnone : older_than = .aware none := by
        rcases older_than with t | _ | t
        · cases hstamp
        · rfl
        · cases hstamp
      rw [hnone] at hfits
      have hsame : m.retainSnapshots = m := retainSnapshots_eq hfits
      have hfail : (MemoryStore.pruneJournal seq r.1 older_than).result m.retainSnapshots = .error e ∧
          (MemoryStore.pruneJournal seq r.1 older_than).after m.retainSnapshots = m := by
        simp only [MemoryStore.pruneJournal, hstamp, hsame, Effect.result_bind, Effect.after_bind,
          Effect.result_ofExcept, Effect.after_ofExcept]
        exact ⟨trivial, trivial⟩
      have hfail' : (SqliteStore.pruneJournal seq r.1 older_than).result d.retainSnapshots =
          .error e := by
        simp only [SqliteStore.pruneJournal, hstamp, Effect.result_bind, Effect.result_ofExcept]
      rw [hB.trans hfail'] at hD hDa
      exact .raises h rfl (hM.trans hfail.1) (hMa.trans hfail.2) hD hDa
    | ok cutoff =>
      have hlow : -2 ^ 63 ≤ seq := by
        rcases older_than with t | _ | t
        · exact hfits.resolve_left hheld
        · cases hstamp
        · exact hfits.resolve_left hheld
      obtain ⟨n, hn, hn', hagree⟩ := hretain.pruneJournal hstamp hlow
        ⟨hr.1, by omega⟩
      rw [hB.trans hn'] at hD hDa
      refine .returns (hM.trans hn) hD ?_
      rw [hMa, hDa, hBa]
      exact hagree

end Snapshots

end Dsl41.Runner
