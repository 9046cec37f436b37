import Dsl41.Runner.Retention

/-!
# Retention over runs

Every call of a store, whether it returns or raises, keeps what `Retained` asks of it; the in-process
store also keeps its index of request ids in step with the rows. A run from empty follows.
-/

namespace Dsl41.Runner

open Infra Infra.Json Canon

/-- The store a run of calls leaves, also where they raise. -/
def MemoryStore.run (s : MemoryStore) (ops : List Op) : MemoryStore :=
  ops.foldl (fun s op => op.memory.after s) s

def SqliteStore.run (s : SqliteStore) (ops : List Op) : SqliteStore :=
  ops.foldl (fun s op => op.sqlite.after s) s

/-! ## What a call writes -/

/-- All that was ever written, once a call has returned or raised. -/
def Op.past (past : Past) (last : Int) (result : Except Error Answer) : Op → Past
  | append records =>
    match records.mapM encode, result with
    | .ok rows, .ok _ => { past with rows := past.rows ++ rowsFrom (last + 1) rows }
    | _, _ => past
  | putSnapshot seq _ _ =>
    match result with
    | .ok _ => { past with snaps := insert seq past.snaps }
    | .error _ => past
  | _ => past

theorem Op.past_append {past : Past} {last : Int} {result : Except Error Answer} {records : List Record} :
    (Op.append records).past past last result =
      match records.mapM encode, result with
      | .ok rows, .ok _ => { past with rows := past.rows ++ rowsFrom (last + 1) rows }
      | _, _ => past := rfl

theorem Op.past_putSnapshot {past : Past} {last seq state_version : Int} {result : Except Error Answer}
    {data : ByteArray} : (Op.putSnapshot seq state_version data).past past last result =
      match result with
      | .ok _ => { past with snaps := insert seq past.snaps }
      | .error _ => past := rfl

def MemoryStore.past (s : MemoryStore) (past : Past) : List Op → Past
  | [] => past
  | op :: ops => MemoryStore.past (op.memory.after s) (op.past past s.lastSeq (op.memory.result s)) ops

def SqliteStore.past (d : SqliteStore) (past : Past) : List Op → Past
  | [] => past
  | op :: ops => SqliteStore.past (op.sqlite.after d) (op.past past d.lastSeq (op.sqlite.result d)) ops

/-! ## What a pruning deletes -/

section Prunes

variable {past : Past} {rows rows' : List MemRow} {last seq k : Int} {snaps snaps' : Finset Int}
  {older_than : Instant} {r : MemRow}

/-- The rows before and after a pruning: none is deleted, or those below the least of the three bounds. -/
def Prunes (rows rows' : List MemRow) (snaps : Finset Int) (seq : Int) (older_than : Instant) : Prop :=
  rows' = rows ∨ ∃ cutoff latest, stamp older_than = .ok cutoff ∧ Latest snaps latest ∧
    rows' = rows.filter fun r =>
      decide (min (min seq latest) ((MemoryStore.firstRecent cutoff rows).getD seq) ≤ r.1)

/-- A row that is deleted is below the given seq, below the latest snapshot and before every row that
is not older than the cutoff. -/
def DeletesBelow (rows rows' : List MemRow) (snaps : Finset Int) (seq : Int) (older_than : Instant) : Prop :=
  ∀ r ∈ rows, r ∉ rows' → r.1 < seq ∧ (∃ latest, Latest snaps latest ∧ r.1 < latest) ∧
    ∃ cutoff, stamp older_than = .ok cutoff ∧ ∀ r' ∈ rows, cutoff ≤ r'.2.at_utc → r.1 < r'.1

/-- The first recent row is not after any other. -/
theorem firstRecent_le (h : Ordered rows) {cutoff : List Char} (hr : r ∈ rows) (hle : cutoff ≤ r.2.at_utc) :
    ∃ first, MemoryStore.firstRecent cutoff rows = some first ∧ first ≤ r.1 := by
  unfold MemoryStore.firstRecent
  induction rows with
  | nil => cases hr
  | cons head rows ih =>
    obtain ⟨hhead, hrows⟩ := List.pairwise_cons.mp h
    by_cases hrecent : cutoff ≤ head.2.at_utc
    · rw [List.find?_cons_of_pos (by simpa using hrecent)]
      refine ⟨head.1, rfl, ?_⟩
      rcases List.mem_cons.mp hr with rfl | hr
      · exact le_rfl
      · exact (hhead r hr).le
    · rw [List.find?_cons_of_neg (by simpa using hrecent)]
      rcases List.mem_cons.mp hr with rfl | hr
      · exact absurd hle hrecent
      · exact ih hrows hr

theorem Prunes.deletesBelow (h : Prunes rows rows' snaps seq older_than) (hordered : Ordered rows) :
    DeletesBelow rows rows' snaps seq older_than := by
  intro r hr hgone
  rcases h with rfl | ⟨cutoff, latest, hcutoff, hlatest, rfl⟩
  · exact absurd hr hgone
  · have hlt : r.1 < min (min seq latest) ((MemoryStore.firstRecent cutoff rows).getD seq) := by
      by_contra hle
      exact hgone (List.mem_filter.mpr ⟨hr, decide_eq_true (not_lt.mp hle)⟩)
    obtain ⟨hboth, hrecent⟩ := lt_min_iff.mp hlt
    obtain ⟨hseq, hbelow⟩ := lt_min_iff.mp hboth
    refine ⟨hseq, ⟨latest, hlatest, hbelow⟩, cutoff, hcutoff, fun r' hr' hle => ?_⟩
    obtain ⟨first, hfirst, hfirst_le⟩ := firstRecent_le hordered hr' hle
    rw [hfirst, Option.getD_some] at hrecent
    exact lt_of_lt_of_le hrecent hfirst_le

theorem Retained.prunes (h : Retained past rows last snaps) (hprunes : Prunes rows rows' snaps seq older_than) :
    Retained past rows' last snaps := by
  rcases hprunes with rfl | ⟨cutoff, latest, -, hlatest, rfl⟩
  · exact h
  · exact h.prune hlatest ((min_le_left _ _).trans (min_le_right _ _))

/-- Where the newest snapshots are kept, the latest stays the latest. -/
theorem Latest.before (h : Latest snaps' k) (hsub : snaps' ⊆ snaps) (hnewest : ∀ k, Newest snaps k → k ∈ snaps') :
    Latest snaps k := by
  obtain ⟨latest, hlatest⟩ := exists_latest ⟨k, hsub h.1⟩
  have hle : latest ≤ k := h.2 latest (hnewest latest hlatest.newest)
  exact ⟨hsub h.1, fun k' hk' => (hlatest.2 k' hk').trans hle⟩

/-- None of the two newest is before the last two. -/
theorem Newest.notMem_front {l : List Int} (h : Newest l.toFinset k) (hsorted : l.Pairwise (· < ·)) :
    k ∉ l.dropLast.dropLast := by
  intro hk
  rcases List.eq_nil_or_concat l with rfl | ⟨init, b, rfl⟩
  · cases hk
  rcases List.eq_nil_or_concat init with rfl | ⟨front, a, rfl⟩
  · cases hk
  simp only [List.concat_eq_append, List.dropLast_concat] at hk hsorted h
  obtain ⟨hinit, -, hb⟩ := List.pairwise_append.mp hsorted
  have hka : k < a := (List.pairwise_append.mp hinit).2.2 k hk a List.mem_cons_self
  have hkb : k < b := hb k (List.mem_append_left _ hk) b List.mem_cons_self
  have hab : a < b := hb a (List.mem_append_right _ List.mem_cons_self) b List.mem_cons_self
  have htwo : ({a, b} : Finset Int) ⊆ ((front ++ [a] ++ [b]).toFinset.filter (k < ·)) := by
    intro x hx
    rcases Finset.mem_insert.mp hx with rfl | hx
    · exact Finset.mem_filter.mpr ⟨by simp, hka⟩
    · rw [Finset.mem_singleton.mp hx]
      exact Finset.mem_filter.mpr ⟨by simp, hkb⟩
  have hcard := (Finset.card_le_card htwo).trans h.2
  rw [Finset.card_pair hab.ne] at hcard
  omega

end Prunes

/-! ## The in-process store -/

section Memory

variable {past : Past} {s : MemoryStore}

section Keyed

variable {s : MemoryStore} {snapshot : Snapshot} {k : Int}

/-- Every snapshot is kept under its own seq. -/
def Keyed (s : MemoryStore) : Prop := ∀ k snapshot, s.snapshots.get? k = some snapshot → snapshot.seq = k

theorem mem_sortedSnapshots : k ∈ s.sortedSnapshots ↔ k ∈ s.snapshots.keys :=
  (List.perm_insertionSort _ _).mem_iff

/-- The latest snapshot is at the highest key. -/
theorem Keyed.latest (h : Keyed s) (hk : k ∈ s.snapshots.keys) :
    ∃ snapshot, s.latestSnapshot = some snapshot ∧ s.sortedSnapshots.getLast? = some snapshot.seq ∧
      k ≤ snapshot.seq := by
  have hmem : k ∈ s.sortedSnapshots := mem_sortedSnapshots.mpr hk
  have hsorted : s.sortedSnapshots.Pairwise (· ≤ ·) := List.pairwise_insertionSort _ _
  rcases List.eq_nil_or_concat s.sortedSnapshots with hnil | ⟨init, last, hconcat⟩
  · rw [hnil] at hmem
    cases hmem
  · have hlast : s.sortedSnapshots.getLast? = some last := by
      rw [hconcat, List.concat_eq_append, List.getLast?_append]
      rfl
    obtain ⟨snapshot, hsnapshot⟩ := Dict.mem_keys.mp
      (mem_sortedSnapshots.mp (List.mem_of_getLast? hlast))
    have hseq : snapshot.seq = last := h last snapshot hsnapshot
    refine ⟨snapshot, ?_, hseq ▸ hlast, ?_⟩
    · rw [MemoryStore.latestSnapshot, hlast, Option.bind_some, hsnapshot]
    · rw [hconcat, List.concat_eq_append] at hmem hsorted
      rw [hseq]
      rcases List.mem_append.mp hmem with hinit | hone
      · exact (List.pairwise_append.mp hsorted).2.2 k hinit last List.mem_cons_self
      · exact le_of_eq (List.mem_singleton.mp hone)

theorem Keyed.of_latest (h : Keyed s) (hlatest : s.latestSnapshot = some snapshot) :
    snapshot.seq ∈ s.snapshots.keys := by
  obtain ⟨last, -, hget⟩ := Option.bind_eq_some_iff.mp hlatest
  have hseq : snapshot.seq = last := h last snapshot hget
  exact Dict.mem_keys.mpr ⟨snapshot, hseq ▸ hget⟩

theorem retainSnapshots_entries : s.retainSnapshots.snapshots.entries =
    s.snapshots.entries.filter fun e => decide (e.1 ∉ s.sortedSnapshots.dropLast.dropLast) :=
  entries_foldl_erase

theorem Keyed.retain (h : Keyed s) : Keyed s.retainSnapshots := by
  intro k snapshot hget
  have hmem := Dict.get?_eq_some.mp hget
  rw [retainSnapshots_entries] at hmem
  exact h k snapshot (Dict.get?_eq_some.mpr (List.mem_of_mem_filter hmem))

end Keyed

def MemoryStore.seqs (s : MemoryStore) : Finset Int := s.snapshots.keys.toFinset

structure MemoryHolds (past : Past) (s : MemoryStore) : Prop where
  retained : Retained past s.rows s.lastSeq s.seqs
  indexed : s.Indexed
  keyed : Keyed s

theorem memoryHolds_empty : MemoryHolds {} .empty where
  retained := retained_empty
  indexed := fun _ _ => ⟨(nomatch ·), fun h => nomatch h.1⟩
  keyed := fun _ _ h => nomatch h

/-- An id that is not in the index is free. -/
theorem MemoryHolds.push (h : MemoryHolds past s) {row : Encoded} (hencoded : ∃ here, encode here = .ok row)
    (hfree : ∀ id ∈ row.request_id, s.requests.get? id = none) :
    MemoryHolds { past with rows := past.rows ++ [(s.lastSeq + 1, row)] } (s.push row) := by
  have hnext : s.next_seq = s.lastSeq + 1 := by rw [MemoryStore.lastSeq]; omega
  have hlast : (s.push row).lastSeq = s.lastSeq + 1 := by
    rw [MemoryStore.lastSeq, MemoryStore.lastSeq]
    show s.next_seq + 1 - 1 = s.next_seq - 1 + 1
    omega
  refine ⟨?_, h.indexed.push hfree, h.keyed⟩
  rw [hlast]
  show Retained _ (s.rows ++ [(s.next_seq, row)]) _ _
  rw [hnext]
  refine h.retained.push hencoded fun id hid r hr hheld => ?_
  have hsome := (h.indexed id r).mpr ⟨hr, hheld⟩
  rw [hfree id hid] at hsome
  cases hsome

theorem MemoryHolds.pushes (h : MemoryHolds past s) {rows : List Encoded}
    (hencoded : ∀ row ∈ rows, ∃ here, encode here = .ok row)
    (hcheck : MemoryStore.checkRequests s.requests [] rows = .ok ()) :
    MemoryHolds { past with rows := past.rows ++ rowsFrom (s.lastSeq + 1) rows } (rows.foldl MemoryStore.push s) := by
  induction rows generalizing past s with
  | nil =>
    rw [rowsFrom, List.append_nil]
    exact h
  | cons row rows ih =>
    obtain ⟨hrow, hrows⟩ := List.forall_mem_cons.mp hencoded
    have hfree : ∀ id ∈ row.request_id, s.requests.get? id = none := by
      intro id hid
      by_contra htaken
      have hid : row.request_id = some id := hid
      simp only [MemoryStore.checkRequests, hid, ne_eq, htaken, not_false_eq_true, true_or, if_true] at hcheck
      cases hcheck
    rw [checkRequests_push hfree] at hcheck
    have hrest := ih (h.push hrow hfree) hrows hcheck
    have hlast : (s.push row).lastSeq = s.lastSeq + 1 := by
      have hone := s.lastSeq_foldl_push [row]
      rw [List.length_singleton] at hone
      exact hone
    rw [hlast] at hrest
    rw [rowsFrom, ← List.singleton_append, ← List.append_assoc]
    exact hrest

theorem MemoryHolds.append (h : MemoryHolds past s) (records : List Record) :
    MemoryHolds ((Op.append records).past past s.lastSeq ((Op.append records).memory.result s))
      ((Op.append records).memory.after s) := by
  rw [Op.past_append, Op.memory, map_result, map_after]
  cases hencoded : records.mapM encode with
  | error e =>
    have hraise : (MemoryStore.append records).after s = s := by
      rw [MemoryStore.append, Effect.after_bind, Effect.result_ofExcept, hencoded]
      rfl
    rw [hraise]
    exact h
  | ok rows =>
    have hresult : (MemoryStore.append records).result s = (MemoryStore.appendRows rows).result s := by
      rw [MemoryStore.append, Effect.result_bind, Effect.result_ofExcept, hencoded]
      rfl
    have hafter : (MemoryStore.append records).after s = (MemoryStore.appendRows rows).after s := by
      rw [MemoryStore.append, Effect.after_bind, Effect.result_ofExcept, hencoded]
      rfl
    rw [hresult, hafter, MemoryStore.appendRows_result, MemoryStore.appendRows_after]
    cases hcheck : MemoryStore.checkRequests s.requests [] rows with
    | error e => exact h
    | ok u =>
      refine h.pushes (fun row hrow => ?_) hcheck
      obtain ⟨here, -, hhere⟩ := mem_of_mapM hencoded hrow
      exact ⟨here, hhere⟩

theorem MemoryHolds.setSnapshot (h : MemoryHolds past s) {seq state_version : Int} {data : ByteArray}
    (hle : seq ≤ s.lastSeq) : MemoryHolds { past with snaps := insert seq past.snaps }
      { s with snapshots := s.snapshots.set seq { seq, state_version, data } } where
  retained := by
    have hseqs : ({ s with snapshots := s.snapshots.set seq { seq, state_version, data } } : MemoryStore).seqs =
        insert seq s.seqs := by
      ext k
      rw [Finset.mem_insert, MemoryStore.seqs, MemoryStore.seqs, List.mem_toFinset, List.mem_toFinset]
      exact Dict.mem_keys_setIn
    rw [hseqs]
    exact h.retained.store hle
  indexed := h.indexed
  keyed := by
    intro k held hget
    rw [Dict.get?_set] at hget
    split at hget
    · next heq =>
      cases hget
      exact heq.symm
    · exact h.keyed k held hget

theorem MemoryHolds.putSnapshot (h : MemoryHolds past s) (seq state_version : Int) (data : ByteArray) :
    MemoryHolds ((Op.putSnapshot seq state_version data).past past s.lastSeq
      ((Op.putSnapshot seq state_version data).memory.result s))
      ((Op.putSnapshot seq state_version data).memory.after s) := by
  rw [Op.past_putSnapshot, Op.memory, map_result, map_after, MemoryStore.putSnapshot]
  by_cases htaken : s.snapshots.get? seq ≠ none
  · simp only [Effect.result_bind, Effect.after_bind, Effect.result_get, Effect.after_get, if_pos htaken]
    exact h
  · by_cases habove : seq > s.lastSeq
    · simp only [Effect.result_bind, Effect.after_bind, Effect.result_get, Effect.after_get, if_neg htaken,
        if_pos habove]
      exact h
    · simp only [Effect.result_bind, Effect.after_bind, Effect.result_get, Effect.after_get, if_neg htaken,
        if_neg habove]
      exact h.setSnapshot (not_lt.mp habove)

/-- The keys once the older snapshots are deleted. -/
theorem mem_seqs_retainSnapshots {k : Int} :
    k ∈ s.retainSnapshots.seqs ↔ k ∈ s.seqs ∧ k ∉ s.sortedSnapshots.dropLast.dropLast := by
  rw [MemoryStore.seqs, MemoryStore.seqs, List.mem_toFinset, List.mem_toFinset, Dict.keys, Dict.keys,
    retainSnapshots_entries]
  constructor
  · intro hk
    obtain ⟨e, he, rfl⟩ := List.mem_map.mp hk
    obtain ⟨hmem, hout⟩ := List.mem_filter.mp he
    exact ⟨List.mem_map_of_mem hmem, by simpa using hout⟩
  · rintro ⟨hk, hout⟩
    obtain ⟨e, he, rfl⟩ := List.mem_map.mp hk
    exact List.mem_map_of_mem (List.mem_filter.mpr ⟨he, by simpa using hout⟩)

theorem retainSnapshots_seqs (s : MemoryStore) :
    s.retainSnapshots.seqs ⊆ s.seqs ∧ ∀ k, Newest s.seqs k → k ∈ s.retainSnapshots.seqs := by
  refine ⟨fun k hk => (mem_seqs_retainSnapshots.mp hk).1, fun k hk => mem_seqs_retainSnapshots.mpr ⟨hk.1, ?_⟩⟩
  have hperm : s.sortedSnapshots.Perm s.snapshots.keys := List.perm_insertionSort _ _
  have hsorted : s.sortedSnapshots.Pairwise (· ≤ ·) := List.pairwise_insertionSort _ _
  have hnodup : s.sortedSnapshots.Nodup := hperm.nodup_iff.mpr s.snapshots.keys_nodup
  have hset : s.sortedSnapshots.toFinset = s.seqs := List.toFinset_eq_of_perm _ _ hperm
  exact (hset ▸ hk).notMem_front (hsorted.imp₂ (fun _ _ hle hne => lt_of_le_of_ne hle hne) hnodup)

theorem MemoryHolds.retain (h : MemoryHolds past s) : MemoryHolds past s.retainSnapshots where
  retained := h.retained.retain (retainSnapshots_seqs s).1 (retainSnapshots_seqs s).2
  indexed := h.indexed
  keyed := h.keyed.retain

theorem Keyed.latest_seqs {snapshot : Snapshot} (h : Keyed s) (hlatest : s.latestSnapshot = some snapshot) :
    Latest s.seqs snapshot.seq := by
  refine ⟨List.mem_toFinset.mpr (h.of_latest hlatest), fun k hk => ?_⟩
  obtain ⟨held, hheld, -, hle⟩ := h.latest (List.mem_toFinset.mp hk)
  rw [hlatest] at hheld
  cases hheld
  exact hle

theorem MemoryHolds.pruneJournal (h : MemoryHolds past s) (seq latest : Int) (older_than : Instant)
    (hlatest : Latest s.seqs latest) :
    MemoryHolds past ((MemoryStore.pruneJournal seq latest older_than).after s) ∧
      Prunes s.rows ((MemoryStore.pruneJournal seq latest older_than).after s).rows s.seqs seq older_than := by
  unfold MemoryStore.pruneJournal
  rw [Effect.after_bind, Effect.result_ofExcept, Effect.after_ofExcept]
  cases hcutoff : stamp older_than with
  | error e => exact ⟨h, .inl rfl⟩
  | ok cutoff =>
    obtain ⟨hresult, requests, hafter, hget⟩ :=
      freeBelow_spec (min (min seq latest) ((MemoryStore.firstRecent cutoff s.rows).getD seq)) (s := s)
        h.retained.ordered (fun r hr id hid => (h.indexed id r).mpr ⟨hr, hid⟩)
        fun id r hr => ((h.indexed id r).mp hr).2
    simp only [Effect.after_bind, Effect.result_get, Effect.after_get, hresult, hafter, Effect.result_modify,
      Effect.after_modify, Effect.after_pure]
    have hprunes : Prunes s.rows _ s.seqs seq older_than := .inr ⟨cutoff, latest, hcutoff, hlatest, rfl⟩
    exact ⟨⟨h.retained.prunes hprunes, h.indexed.deleteBelow hget, h.keyed⟩, hprunes⟩

theorem MemoryHolds.pruneBefore (h : MemoryHolds past s) (seq : Int) (older_than : Instant) :
    MemoryHolds past ((MemoryStore.pruneBefore seq older_than).after s) ∧
      Prunes s.rows ((MemoryStore.pruneBefore seq older_than).after s).rows s.seqs seq older_than := by
  unfold MemoryStore.pruneBefore
  rw [Effect.after_bind, Effect.result_modify, Effect.after_modify]
  dsimp only
  rw [Effect.after_bind, Effect.result_get, Effect.after_get]
  dsimp only
  cases hlatest : s.retainSnapshots.latestSnapshot with
  | none => exact ⟨h.retain, .inl rfl⟩
  | some latest =>
    obtain ⟨hholds, hprunes⟩ := h.retain.pruneJournal seq _ older_than
      (h.retain.keyed.latest_seqs hlatest)
    refine ⟨hholds, hprunes.imp_right ?_⟩
    rintro ⟨cutoff, k, hcutoff, hk, hrows⟩
    exact ⟨cutoff, k, hcutoff, hk.before (retainSnapshots_seqs s).1 (retainSnapshots_seqs s).2, hrows⟩

theorem MemoryHolds.call (h : MemoryHolds past s) (op : Op) :
    MemoryHolds (op.past past s.lastSeq (op.memory.result s)) (op.memory.after s) := by
  cases op with
  | append records => exact h.append records
  | putSnapshot seq state_version data => exact h.putSnapshot seq state_version data
  | pruneBefore seq older_than =>
    rw [Op.memory, map_after]
    exact (h.pruneBefore seq older_than).1
  | putConfig data digest =>
    rw [Op.memory, map_after]
    exact ⟨h.retained, h.indexed, h.keyed⟩
  | readFrom seq | findRequest request_id | findConfig digest | getConfig rev =>
    rw [Op.memory, map_after]
    exact h
  | lastSeq | currentConfigRev | latestSnapshot => exact h

theorem MemoryHolds.run (h : MemoryHolds past s) (ops : List Op) : MemoryHolds (s.past past ops) (s.run ops) := by
  induction ops generalizing past s with
  | nil => exact h
  | cons op ops ih => exact ih (h.call op)

end Memory

/-! ## The store over a database -/

section Database

variable {past : Past} {d : SqliteStore}

def SqliteStore.seqs (d : SqliteStore) : Finset Int := (d.snapshots.map Prod.fst).toFinset

structure SqliteHolds (past : Past) (d : SqliteStore) : Prop where
  retained : Retained past d.journal d.lastSeq d.seqs
  ordered : Ordered d.snapshots

theorem sqliteHolds_empty : SqliteHolds {} .empty := ⟨retained_empty, List.Pairwise.nil⟩

/-- An insert that returns wrote one row, under an id that none held. -/
theorem insertJournal_ok {row : Encoded} (hrow : row.Scalar) (h : (SqliteStore.insertJournal row).result d = .ok ()) :
    (SqliteStore.insertJournal row).after d = d.push row ∧
      ∀ id ∈ row.request_id, some id ∉ d.journal.map fun r => r.2.request_id := by
  by_cases hroom : Int64Range (d.lastSeq + 1)
  · by_cases hfree : ∀ id ∈ row.request_id, some id ∉ d.journal.map fun r => r.2.request_id
    · exact ⟨(insertJournal_free hrow hroom hfree).2, hfree⟩
    · push Not at hfree
      obtain ⟨id, hid, htaken⟩ := hfree
      rw [(insertJournal_taken hrow hroom hid htaken).1] at h
      cases h
  · obtain ⟨hkind, hactor, hrequest⟩ := hrow
    simp only [SqliteStore.insertJournal, bindText_ok hkind, bindOptional_ok hactor, bindOptional_ok hrequest,
      Effect.result_bind, Effect.result_ofExcept, Effect.after_ofExcept, Effect.result_get, Effect.after_get,
      if_pos hroom] at h
    cases h

theorem SqliteHolds.push (h : SqliteHolds past d) {row : Encoded} (hencoded : ∃ here, encode here = .ok row)
    (hfree : ∀ id ∈ row.request_id, some id ∉ d.journal.map fun r => r.2.request_id) :
    SqliteHolds { past with rows := past.rows ++ [(d.lastSeq + 1, row)] } (d.push row) where
  retained := h.retained.push hencoded fun id hid r hr hheld =>
    hfree id hid (List.mem_map.mpr ⟨r, hr, hheld⟩)
  ordered := h.ordered

theorem SqliteHolds.insertAll (h : SqliteHolds past d) {rows : List Encoded}
    (hencoded : ∀ row ∈ rows, ∃ here, encode here = .ok row)
    (hok : (SqliteStore.insertAll rows).result d = .ok ()) :
    SqliteHolds { past with rows := past.rows ++ rowsFrom (d.lastSeq + 1) rows }
      ((SqliteStore.insertAll rows).after d) := by
  induction rows generalizing past d with
  | nil =>
    rw [rowsFrom, List.append_nil]
    exact h
  | cons row rows ih =>
    obtain ⟨hrow, hrows⟩ := List.forall_mem_cons.mp hencoded
    obtain ⟨here, hhere⟩ := hrow
    obtain ⟨u, hone, hok, hafter⟩ := Effect.bind_result_ok hok
    obtain ⟨hpush, hfree⟩ := insertJournal_ok (encode_scalar hhere) hone
    rw [hpush] at hok hafter
    rw [SqliteStore.insertAll, hafter, rowsFrom, ← List.singleton_append, ← List.append_assoc]
    exact ih (h.push ⟨here, hhere⟩ hfree) hrows hok

theorem SqliteHolds.appendRows (h : SqliteHolds past d) {rows : List Encoded}
    (hencoded : ∀ row ∈ rows, ∃ here, encode here = .ok row) :
    match (SqliteStore.appendRows rows).result d with
    | .ok _ => SqliteHolds { past with rows := past.rows ++ rowsFrom (d.lastSeq + 1) rows }
        ((SqliteStore.appendRows rows).after d)
    | .error _ => (SqliteStore.appendRows rows).after d = d := by
  by_cases hnil : rows = []
  · rw [hnil, SqliteStore.appendRows, if_pos rfl, rowsFrom, List.append_nil]
    exact h
  · rw [SqliteStore.appendRows, if_neg hnil, Effect.result_atomically, Effect.after_atomically,
      Effect.result_bind, Effect.after_bind, Effect.result_mapError, Effect.after_mapError]
    cases hok : (SqliteStore.insertAll rows).result d with
    | error e => rfl
    | ok u => exact h.insertAll hencoded hok

theorem SqliteHolds.append (h : SqliteHolds past d) (records : List Record) :
    SqliteHolds ((Op.append records).past past d.lastSeq ((Op.append records).sqlite.result d))
      ((Op.append records).sqlite.after d) := by
  rw [Op.past_append, Op.sqlite, map_result, map_after]
  cases hencoded : records.mapM encode with
  | error e =>
    have hraise : (SqliteStore.append records).after d = d := by
      rw [SqliteStore.append, Effect.after_bind, Effect.result_ofExcept, hencoded]
      rfl
    rw [hraise]
    exact h
  | ok rows =>
    have hresult : (SqliteStore.append records).result d = (SqliteStore.appendRows rows).result d := by
      rw [SqliteStore.append, Effect.result_bind, Effect.result_ofExcept, hencoded]
      rfl
    have hafter : (SqliteStore.append records).after d = (SqliteStore.appendRows rows).after d := by
      rw [SqliteStore.append, Effect.after_bind, Effect.result_ofExcept, hencoded]
      rfl
    have hrows := h.appendRows fun row hrow => by
      obtain ⟨here, -, hhere⟩ := mem_of_mapM hencoded hrow
      exact ⟨here, hhere⟩
    rw [hresult, hafter]
    cases hok : (SqliteStore.appendRows rows).result d with
    | error e =>
      rw [hok] at hrows
      rw [show (SqliteStore.appendRows rows).after d = d from hrows]
      exact h
    | ok last =>
      rw [hok] at hrows
      exact hrows

theorem bindInt_eq {i j : Int} (h : bindInt i = .ok j) : j = i := by
  unfold bindInt at h
  split at h
  · exact (Except.ok.inj h).symm
  · cases h

/-- A snapshot's insert that returns put it at its place among the others. -/
theorem SqliteHolds.insertSnapshot (h : SqliteHolds past d) {seq state_version : Int} {data : ByteArray}
    (hle : seq ≤ d.lastSeq) (hok : (SqliteStore.insertSnapshot seq state_version data).result d = .ok ()) :
    SqliteHolds { past with snaps := insert seq past.snaps }
      ((SqliteStore.insertSnapshot seq state_version data).after d) := by
  obtain ⟨number, hnumber, hok, hafter⟩ := Effect.bind_result_ok hok
  rw [SqliteStore.insertSnapshot, hafter]
  obtain rfl := bindInt_eq hnumber
  obtain ⟨version, hversion, hok, hafter⟩ := Effect.bind_result_ok hok
  rw [hafter]
  obtain rfl := bindInt_eq hversion
  simp only [Effect.after_ofExcept, Effect.result_bind, Effect.after_bind, Effect.result_get, Effect.after_get] at hok ⊢
  by_cases htaken : number ∈ d.snapshots.map Prod.fst
  · rw [if_pos htaken] at hok
    cases hok
  · rw [if_neg htaken]
    have hmem : ∀ r : Int × SnapshotRow, r ∈ d.snapshots.filter (fun r => decide (r.1 ≤ number)) ++
        rowsAfter number d.snapshots ↔ r ∈ d.snapshots := fun r => by
      rw [h.ordered.split]
    refine ⟨?_, ?_⟩
    · have hseqs : ((d.snapshots.filter (fun r => decide (r.1 ≤ number)) ++
          (number, ({ at_utc := d.journalTime, state_version := version, data } : SnapshotRow)) ::
            rowsAfter number d.snapshots).map Prod.fst).toFinset = insert number d.seqs := by
        ext k
        simp only [SqliteStore.seqs, List.mem_toFinset, List.mem_map, List.mem_append, List.mem_cons,
          Finset.mem_insert]
        constructor
        · rintro ⟨r, hr | rfl | hr, rfl⟩
          · exact .inr ⟨r, List.mem_of_mem_filter hr, rfl⟩
          · exact .inl rfl
          · exact .inr ⟨r, List.mem_of_mem_filter hr, rfl⟩
        · rintro (rfl | ⟨r, hr, rfl⟩)
          · exact ⟨_, .inr (.inl rfl), rfl⟩
          · rcases List.mem_append.mp ((hmem r).mpr hr) with hr | hr
            · exact ⟨r, .inl hr, rfl⟩
            · exact ⟨r, .inr (.inr hr), rfl⟩
      have hretained := h.retained.store hle
      rw [← hseqs] at hretained
      exact hretained
    · have hlow : ∀ r ∈ d.snapshots.filter (fun r => decide (r.1 ≤ number)), r.1 < number := by
        intro r hr
        obtain ⟨hr, hle⟩ := List.mem_filter.mp hr
        refine lt_of_le_of_ne (by simpa using hle) fun heq => htaken (heq ▸ List.mem_map_of_mem hr)
      have hhigh : ∀ r ∈ rowsAfter number d.snapshots, number < r.1 := fun r hr => by
        simpa using (List.mem_filter.mp hr).2
      refine List.pairwise_append.mpr ⟨h.ordered.filter _, List.pairwise_cons.mpr ⟨hhigh, h.ordered.filter _⟩, ?_⟩
      intro r hr r' hr'
      rcases List.mem_cons.mp hr' with rfl | hr'
      · exact hlow r hr
      · exact (hlow r hr).trans (hhigh r' hr')

theorem SqliteHolds.putSnapshot (h : SqliteHolds past d) (seq state_version : Int) (data : ByteArray) :
    SqliteHolds ((Op.putSnapshot seq state_version data).past past d.lastSeq
      ((Op.putSnapshot seq state_version data).sqlite.result d))
      ((Op.putSnapshot seq state_version data).sqlite.after d) := by
  rw [Op.past_putSnapshot, Op.sqlite, map_result, map_after, SqliteStore.putSnapshot, Effect.result_atomically,
    Effect.after_atomically]
  by_cases habove : seq > d.lastSeq
  · simp only [Effect.result_bind, Effect.after_bind, Effect.result_get, Effect.after_get, if_pos habove]
    exact h
  · simp only [Effect.result_bind, Effect.after_bind, Effect.result_get, Effect.after_get, if_neg habove,
      Effect.result_mapError, Effect.after_mapError]
    cases hok : (SqliteStore.insertSnapshot seq state_version data).result d with
    | error e => exact h
    | ok u => exact h.insertSnapshot (not_lt.mp habove) hok

theorem SqliteHolds.retainSnapshots_seqs (h : SqliteHolds past d) :
    d.retainSnapshots.seqs ⊆ d.seqs ∧ ∀ k, Newest d.seqs k → k ∈ d.retainSnapshots.seqs := by
  constructor
  · intro k hk
    obtain ⟨r, hr, rfl⟩ := List.mem_map.mp (List.mem_toFinset.mp hk)
    exact List.mem_toFinset.mpr (List.mem_map_of_mem (List.mem_of_mem_filter hr))
  · intro k hk
    have hsorted : (d.snapshots.map Prod.fst).Pairwise (· < ·) := List.pairwise_map.mpr h.ordered
    have hmem : k ∈ d.snapshots.map Prod.fst := List.mem_toFinset.mp hk.1
    have hout := hk.notMem_front hsorted
    rw [mem_dropLast_dropLast (hsorted.imp ne_of_lt) hmem, not_not, ← List.map_reverse, ← List.map_take] at hout
    obtain ⟨r, hr, rfl⟩ := List.mem_map.mp hmem
    exact List.mem_toFinset.mpr (List.mem_map_of_mem (List.mem_filter.mpr ⟨hr, decide_eq_true hout⟩))

theorem SqliteHolds.retain (h : SqliteHolds past d) : SqliteHolds past d.retainSnapshots where
  retained := h.retained.retain h.retainSnapshots_seqs.1 h.retainSnapshots_seqs.2
  ordered := h.ordered.filter _

/-- The greatest row number is the latest snapshot. -/
theorem SqliteHolds.latest (h : SqliteHolds past d) {latest : Int} (hlatest : SqliteStore.maxRow d.snapshots = some latest) :
    Latest d.seqs latest := by
  obtain ⟨r, hr, rfl⟩ := Option.map_eq_some_iff.mp hlatest
  obtain ⟨init, hinit⟩ := List.getLast?_eq_some_iff.mp hr
  refine ⟨List.mem_toFinset.mpr (List.mem_map_of_mem (List.mem_of_getLast? hr)), fun k hk => ?_⟩
  obtain ⟨r', hr', rfl⟩ := List.mem_map.mp (List.mem_toFinset.mp hk)
  have hordered := h.ordered
  rw [hinit] at hr' hordered
  rcases List.mem_append.mp hr' with hr' | hr'
  · exact ((List.pairwise_append.mp hordered).2.2 r' hr' r List.mem_cons_self).le
  · rw [List.mem_singleton.mp hr']

theorem SqliteHolds.pruneJournal (h : SqliteHolds past d) (seq latest : Int) (older_than : Instant)
    (hlatest : Latest d.seqs latest) :
    SqliteHolds past ((SqliteStore.pruneJournal seq latest older_than).after d) ∧
      Prunes d.journal ((SqliteStore.pruneJournal seq latest older_than).after d).journal d.seqs seq older_than := by
  unfold SqliteStore.pruneJournal
  rw [Effect.after_bind, Effect.result_ofExcept, Effect.after_ofExcept]
  cases hcutoff : stamp older_than with
  | error e => exact ⟨h, .inl rfl⟩
  | ok cutoff =>
    simp only [Effect.after_bind, Effect.result_get, Effect.after_get, Effect.result_ofExcept, Effect.after_ofExcept]
    cases hbound : bindInt (min (min seq latest) ((d.firstRecent cutoff).getD seq)) with
    | error e => exact ⟨h, .inl rfl⟩
    | ok bound =>
      obtain rfl := bindInt_eq hbound
      have hprunes : Prunes d.journal _ d.seqs seq older_than := .inr ⟨cutoff, latest, hcutoff, hlatest, rfl⟩
      exact ⟨⟨h.retained.prunes hprunes, h.ordered⟩, hprunes⟩

theorem SqliteHolds.pruneRows (h : SqliteHolds past d) (seq : Int) (older_than : Instant) :
    SqliteHolds past ((SqliteStore.pruneRows seq older_than).after d) ∧
      Prunes d.journal ((SqliteStore.pruneRows seq older_than).after d).journal d.seqs seq older_than := by
  unfold SqliteStore.pruneRows
  rw [Effect.after_bind, Effect.result_modify, Effect.after_modify]
  dsimp only
  rw [Effect.after_bind, Effect.result_get, Effect.after_get]
  dsimp only
  cases hlatest : SqliteStore.maxRow d.retainSnapshots.snapshots with
  | none => exact ⟨h.retain, .inl rfl⟩
  | some latest =>
    obtain ⟨hholds, hprunes⟩ := h.retain.pruneJournal seq _ older_than
      (h.retain.latest hlatest)
    refine ⟨hholds, hprunes.imp_right ?_⟩
    rintro ⟨cutoff, k, hcutoff, hk, hrows⟩
    exact ⟨cutoff, k, hcutoff, hk.before h.retainSnapshots_seqs.1 h.retainSnapshots_seqs.2, hrows⟩

/-- A pruning that raises is rolled back. -/
theorem SqliteHolds.pruneBefore (h : SqliteHolds past d) (seq : Int) (older_than : Instant) :
    SqliteHolds past ((SqliteStore.pruneBefore seq older_than).after d) ∧
      Prunes d.journal ((SqliteStore.pruneBefore seq older_than).after d).journal d.seqs seq older_than := by
  rw [SqliteStore.pruneBefore, Effect.after_atomically]
  split
  · exact h.pruneRows seq older_than
  · exact ⟨h, .inl rfl⟩

theorem SqliteHolds.putConfig (h : SqliteHolds past d) (data : ByteArray) (digest : Str) :
    SqliteHolds past ((SqliteStore.putConfig data digest).after d) := by
  rw [SqliteStore.putConfig, Effect.after_atomically]
  split
  · next rev hok =>
    rw [Effect.result_mapError] at hok
    rw [Effect.after_mapError]
    cases hinsert : (SqliteStore.insertConfig data digest).result d with
    | error e =>
      rw [hinsert] at hok
      cases hok
    | ok rev' =>
      obtain ⟨digest', -, hinsert, hafter⟩ := Effect.bind_result_ok hinsert
      rw [SqliteStore.insertConfig, hafter]
      simp only [Effect.after_ofExcept, Effect.result_bind, Effect.after_bind, Effect.result_get,
        Effect.after_get] at hinsert ⊢
      by_cases hroom : Int64Range ((SqliteStore.maxRow d.configs).getD 0 + 1)
      · simp only [not_not.mpr hroom, if_false]
        exact ⟨h.retained, h.ordered⟩
      · simp only [hroom, not_false_eq_true, if_true] at hinsert
        cases hinsert
  · exact h

theorem SqliteHolds.call (h : SqliteHolds past d) (op : Op) :
    SqliteHolds (op.past past d.lastSeq (op.sqlite.result d)) (op.sqlite.after d) := by
  cases op with
  | append records => exact h.append records
  | putSnapshot seq state_version data => exact h.putSnapshot seq state_version data
  | pruneBefore seq older_than =>
    rw [Op.sqlite, map_after]
    exact (h.pruneBefore seq older_than).1
  | putConfig data digest =>
    rw [Op.sqlite, map_after]
    exact h.putConfig data digest
  | readFrom seq | findRequest request_id | findConfig digest | getConfig rev =>
    rw [Op.sqlite, map_after]
    exact h
  | lastSeq | currentConfigRev | latestSnapshot => exact h

theorem SqliteHolds.run (h : SqliteHolds past d) (ops : List Op) : SqliteHolds (d.past past ops) (d.run ops) := by
  induction ops generalizing past d with
  | nil => exact h
  | cons op ops ih => exact ih (h.call op)

end Database

/-! ## What a store retains -/

/-- What a store holds of all that was written to it, and what it answers for a request id. -/
structure Retains (past : Past) (rows : List MemRow) (last : Int) (snaps : Finset Int)
    (find_request : Str → Except Error (Option Record)) : Prop where
  numbered : ∃ encoded, past.rows = rowsFrom 1 encoded
  suffix : rows <:+ past.rows
  range : past.rows = [] ∨ ∃ first, first ≤ last ∧ ∀ q, q ∈ rows.map Prod.fst ↔ first ≤ q ∧ q ≤ last
  covered : ∀ latest, Latest snaps latest → ∀ r ∈ past.rows, latest ≤ r.1 → r ∈ rows
  newest : ∀ k, Newest past.snaps k → k ∈ snaps
  readable : ∀ r ∈ rows, (∃ d : Watch.Moment, r.2.at_utc = d.1.isoformat) → ∃ here, record r.2 = .ok here
  found : ∀ r ∈ rows, ∀ id, r.2.request_id = some id → find_request id = (record r.2).map some
  pruned : ∀ r ∈ past.rows, ∀ id, r.2.request_id = some id → (∀ r' ∈ rows, r'.2.request_id ≠ some id) →
    find_request id = .ok none

section Retains

variable {past : Past} {rows : List MemRow} {last : Int} {snaps : Finset Int} {s : MemoryStore} {d : SqliteStore}

/-- A row that was encoded is read back. -/
theorem record_of_encode {here : Record} {row : Encoded} (h : encode here = .ok row)
    (hat : ∃ d : Watch.Moment, row.at_utc = d.1.isoformat) : ∃ back, record row = .ok back := by
  obtain ⟨d, hat⟩ := hat
  unfold encode at h
  obtain ⟨⟨⟩, -, h⟩ := bind_eq_ok.mp h
  obtain ⟨⟨⟩, -, h⟩ := bind_eq_ok.mp h
  obtain ⟨⟨⟩, -, h⟩ := bind_eq_ok.mp h
  obtain ⟨⟨⟩, -, h⟩ := bind_eq_ok.mp h
  obtain ⟨at_utc, -, h⟩ := bind_eq_ok.mp h
  obtain ⟨data, hdata, h⟩ := bind_eq_ok.mp h
  cases h
  obtain ⟨payload, hpayload⟩ : ∃ payload, decodePayload data = .ok payload := by
    unfold encodePayload at hdata
    cases hpayload : here.payload with
    | mapping entries =>
      rw [hpayload] at hdata
      obtain ⟨⟨⟩, -, hdata⟩ := bind_eq_ok.mp hdata
      obtain ⟨data', -, hdata⟩ := bind_eq_ok.mp hdata
      obtain ⟨payload, hpayload, hdata⟩ := bind_eq_ok.mp hdata
      cases hdata
      exact ⟨payload, hpayload⟩
    | _ =>
      rw [hpayload] at hdata
      cases hdata
  unfold record
  rw [show at_utc = d.1.isoformat from hat, Watch.unstamp_isoformat, ok_bind, hpayload, ok_bind]
  exact ⟨_, rfl⟩

/-- What a holding retains; the answers for request ids are each store's own. -/
theorem Retained.retains (h : Retained past rows last snaps) {find_request : Str → Except Error (Option Record)}
    (hfound : ∀ r ∈ rows, ∀ id, r.2.request_id = some id → find_request id = (record r.2).map some)
    (hpruned : ∀ r ∈ past.rows, ∀ id, r.2.request_id = some id → (∀ r' ∈ rows, r'.2.request_id ≠ some id) →
      find_request id = .ok none) : Retains past rows last snaps find_request where
  numbered := ⟨past.rows.map Prod.snd, eq_rowsFrom _ fun i r hr => by rw [h.numbered i r hr]; omega⟩
  suffix := h.suffix
  range := h.range
  covered := h.covered
  newest := h.newest
  readable := fun r hr hat => by
    obtain ⟨here, hhere⟩ := h.encoded r (h.suffix.subset hr)
    exact record_of_encode hhere hat
  found := hfound
  pruned := hpruned

theorem MemoryHolds.retains (h : MemoryHolds past s) : Retains past s.rows s.lastSeq s.seqs s.findRequest := by
  refine h.retained.retains (fun r hr id hid => ?_) fun r hr id hid hgone => ?_
  · rw [MemoryStore.findRequest, (h.indexed id r).mpr ⟨hr, hid⟩]
  · have hnone : s.requests.get? id = none := by
      rw [Option.eq_none_iff_forall_ne_some]
      intro r' hr'
      obtain ⟨hmem, hheld⟩ := (h.indexed id r').mp hr'
      exact hgone r' hmem hheld
    rw [MemoryStore.findRequest, hnone]

theorem SqliteHolds.retains (h : SqliteHolds past d) : Retains past d.journal d.lastSeq d.seqs d.findRequest := by
  have hscalar : ∀ r ∈ past.rows, ∀ id, r.2.request_id = some id → bindText id = .ok id := by
    intro r hr id hid
    obtain ⟨here, hhere⟩ := h.retained.encoded r hr
    exact bindText_ok ((encode_scalar hhere).2.2 id hid)
  refine h.retained.retains (fun r hr id hid => ?_) fun r hr id hid hgone => ?_
  · rw [SqliteStore.findRequest, hscalar r (h.retained.suffix.subset hr) id hid, ok_bind]
    cases hfind : d.journal.find? fun r => decide (r.2.request_id = some id) with
    | none =>
      have hnone := List.find?_eq_none.mp hfind r hr
      simp [hid] at hnone
    | some r' =>
      have hid' : r'.2.request_id = some id := by simpa using List.find?_some hfind
      rw [h.retained.unique r hr r' (List.mem_of_find?_eq_some hfind) id hid hid']
  · have hnone : d.journal.find? (fun r => decide (r.2.request_id = some id)) = none :=
      List.find?_eq_none.mpr fun r' hr' => by simpa using hgone r' hr'
    rw [SqliteStore.findRequest, hscalar r hr id hid, ok_bind, hnone]
    rfl

end Retains

/-- Every run of calls leaves both stores with one unbroken range of rows up to the last seq, with all
from the latest snapshot on, the two newest snapshots and an answer for just the ids they hold; and a
pruning from there deletes no row at or past any of its three bounds. -/
theorem stores_retain (ops : List Op) :
    (Retains (MemoryStore.past .empty {} ops) (MemoryStore.run .empty ops).rows (MemoryStore.run .empty ops).lastSeq
        (MemoryStore.run .empty ops).seqs (MemoryStore.run .empty ops).findRequest ∧
      ∀ seq older_than, DeletesBelow (MemoryStore.run .empty ops).rows
        ((MemoryStore.pruneBefore seq older_than).after (MemoryStore.run .empty ops)).rows
        (MemoryStore.run .empty ops).seqs seq older_than) ∧
    (Retains (SqliteStore.past .empty {} ops) (SqliteStore.run .empty ops).journal (SqliteStore.run .empty ops).lastSeq
        (SqliteStore.run .empty ops).seqs (SqliteStore.run .empty ops).findRequest ∧
      ∀ seq older_than, DeletesBelow (SqliteStore.run .empty ops).journal
        ((SqliteStore.pruneBefore seq older_than).after (SqliteStore.run .empty ops)).journal
        (SqliteStore.run .empty ops).seqs seq older_than) := by
  have hm := memoryHolds_empty.run ops
  have hd := sqliteHolds_empty.run ops
  refine ⟨⟨hm.retains, fun seq older_than => ?_⟩, hd.retains, fun seq older_than => ?_⟩
  · exact (hm.pruneBefore seq older_than).2.deletesBelow hm.retained.ordered
  · exact (hd.pruneBefore seq older_than).2.deletesBelow hd.retained.ordered

end Dsl41.Runner
