import Dsl41.Runner.RetentionRuns

/-!
# The history of a store

What was ever appended to a store, beside what it still holds: the rows are the end of it, and a
snapshot stands above every row that is gone.
-/

namespace Dsl41.Runner

open Infra Infra.Json Canon

/-- The rows a call writes: those of an append that returns. -/
def Op.written (s : MemoryStore) : Op → List MemRow
  | append records =>
    match records.mapM encode, (MemoryStore.append records).result s with
    | .ok rows, .ok _ => rowsFrom s.next_seq rows
    | _, _ => []
  | _ => []

/-- The rows a run of calls ever writes. -/
def written (s : MemoryStore) : List Op → List MemRow
  | [] => []
  | op :: ops => op.written s ++ written (op.memory.after s) ops

/-! ## What a store holds -/

/-- The rows of a store end what was written to it; a snapshot stands above what is gone. -/
structure Holds (log : List MemRow) (s : MemoryStore) : Prop where
  numbered : ∃ rows, log = rowsFrom 1 rows
  next : s.next_seq = log.length + 1
  kept : ∃ gone, log = gone ++ s.rows ∧ ∀ r ∈ gone, ∃ k ∈ s.snapshots.keys, r.1 < k
  keyed : Keyed s
  covered : ∀ k ∈ s.snapshots.keys, k ≤ s.lastSeq

section Holds

variable {log : List MemRow} {s : MemoryStore}

theorem Holds.ordered (h : Holds log s) : Ordered log := by
  obtain ⟨rows, rfl⟩ := h.numbered
  exact ordered_rowsFrom rows

/-- What is gone is below the latest snapshot. -/
theorem MemoryHolds.holds {past : Past} (h : MemoryHolds past s) : Holds past.rows s where
  numbered := ⟨past.rows.map Prod.snd, eq_rowsFrom _ fun i r hr => by rw [h.retained.numbered i r hr]; omega⟩
  next := by
    have hcounted := h.retained.counted
    rw [MemoryStore.lastSeq] at hcounted
    omega
  kept := by
    obtain ⟨gone, hgone⟩ := h.retained.suffix
    refine ⟨gone, hgone.symm, fun r hr => ?_⟩
    have hout : r ∉ s.rows := fun hin => by
      have hordered := h.retained.ordered_past
      rw [← hgone] at hordered
      exact lt_irrefl _ ((List.pairwise_append.mp hordered).2.2 r hr r hin)
    have hmem : r ∈ past.rows := hgone ▸ List.mem_append_left _ hr
    rcases s.seqs.eq_empty_or_nonempty with hnone | hsome
    · rw [h.retained.whole hnone] at hout
      exact absurd hmem hout
    · obtain ⟨k, hk⟩ := exists_latest hsome
      refine ⟨k, List.mem_toFinset.mp hk.1, ?_⟩
      by_contra hle
      exact hout (h.retained.covered k hk r hmem (not_lt.mp hle))
  keyed := h.keyed
  covered := fun k hk => h.retained.below k (List.mem_toFinset.mpr hk)

/-- What a call writes is what comes to the rows of the past. -/
theorem Op.past_rows {past : Past} (op : Op) :
    (op.past past s.lastSeq (op.memory.result s)).rows = past.rows ++ op.written s := by
  cases op with
  | append records =>
    have hnext : s.lastSeq + 1 = s.next_seq := by rw [MemoryStore.lastSeq]; omega
    rw [past_append, memory, map_result, written, hnext]
    cases records.mapM encode with
    | error e => exact (List.append_nil _).symm
    | ok rows =>
      cases (MemoryStore.append records).result s with
      | error e => exact (List.append_nil _).symm
      | ok last => rfl
  | putSnapshot seq state_version data =>
    rw [past_putSnapshot]
    split
    · exact (List.append_nil _).symm
    · exact (List.append_nil _).symm
  | _ => exact (List.append_nil _).symm

theorem past_rows {past : Past} (ops : List Op) : (s.past past ops).rows = past.rows ++ written s ops := by
  induction ops generalizing past s with
  | nil => exact (List.append_nil _).symm
  | cons op ops ih => rw [MemoryStore.past, ih, Op.past_rows, written, List.append_assoc]

/-- A store holds the end of all that a run of calls ever wrote to it. -/
theorem holds_run (ops : List Op) : Holds (written .empty ops) (MemoryStore.run .empty ops) := by
  have hholds := (memoryHolds_empty.run ops).holds
  rw [past_rows] at hholds
  exact hholds

/-- What a store reads back from the start. -/
theorem Holds.readFrom (h : Holds log s) : s.readFrom 0 = s.rows.mapM SqliteStore.recordOf := by
  obtain ⟨gone, hgone, -⟩ := h.kept
  have hordered : Ordered s.rows := (List.pairwise_append.mp (hgone ▸ h.ordered)).2.1
  have hall : rowsAfter 0 s.rows = s.rows := by
    refine List.filter_eq_self.mpr fun r hr => decide_eq_true ?_
    obtain ⟨rows, hrows⟩ := h.numbered
    have hmem : r ∈ rowsFrom 1 rows := hrows ▸ hgone ▸ List.mem_append_right _ hr
    have hbounds := le_of_mem_rowsFrom hmem
    omega
  rw [MemoryStore.readFrom, MemoryStore.readFrom_loop hordered (List.length_filter_le _ _), hall]

theorem Holds.le_lastSeq (h : Holds log s) {r : MemRow} (hr : r ∈ s.rows) : r.1 ≤ s.lastSeq := by
  obtain ⟨gone, hgone, -⟩ := h.kept
  obtain ⟨rows, hrows⟩ := h.numbered
  have hmem : r ∈ log := hgone ▸ List.mem_append_right _ hr
  obtain ⟨front, back, hsplit⟩ := List.append_of_mem hmem
  have hseq : r.1 = 1 + front.length := seq_of_rowsFrom (hrows ▸ hsplit)
  have hlength : log.length = front.length + (back.length + 1) := by
    rw [hsplit, List.length_append, List.length_cons]
  have hnext := h.next
  rw [MemoryStore.lastSeq]
  omega

/-- What is gone, if anything, came first and below the latest snapshot, and what is left shows it. -/
theorem Holds.gone (h : Holds log s) : ∃ gone, log = gone ++ s.rows ∧
    (∀ r ∈ gone, ∃ snapshot, s.latestSnapshot = some snapshot ∧ r.1 < snapshot.seq) ∧
    (s.rows.head?.any (fun r => decide (1 < r.1)) = true ↔ gone ≠ []) := by
  obtain ⟨gone, hgone, habove⟩ := h.kept
  obtain ⟨rows, hrows⟩ := h.numbered
  refine ⟨gone, hgone, fun r hr => ?_, ?_⟩
  · obtain ⟨k, hk, hlt⟩ := habove r hr
    obtain ⟨snapshot, hlatest, -, hle⟩ := h.keyed.latest hk
    exact ⟨snapshot, hlatest, lt_of_lt_of_le hlt hle⟩
  · cases hheld : s.rows with
    | nil =>
      rw [hheld, List.append_nil] at hgone
      have hnil : gone = [] := by
        rcases List.eq_nil_or_concat gone with hnil | ⟨init, r, hconcat⟩
        · exact hnil
        · rw [List.concat_eq_append] at hconcat
          obtain ⟨k, hk, hlt⟩ := habove r (hconcat ▸ List.mem_append_right _ List.mem_cons_self)
          have hseq : r.1 = 1 + init.length := seq_of_rowsFrom (hrows ▸ hgone.trans hconcat)
          have hle := h.covered k hk
          have hnext := h.next
          rw [MemoryStore.lastSeq, hnext, hgone, hconcat, List.length_append, List.length_singleton] at hle
          push_cast at hle
          omega
      rw [hnil]
      simp
    | cons r rest =>
      have hseq : r.1 = 1 + gone.length := seq_of_rowsFrom (hrows ▸ hheld ▸ hgone)
      have hany : (r :: rest).head?.any (fun r => decide (1 < r.1)) = decide (1 < r.1) := rfl
      rw [hany, decide_eq_true_iff, hseq, ← List.length_pos_iff]
      omega

end Holds

/-- Both stores are left agreeing by a run whose calls fit. -/
theorem Agree.after_run {m : MemoryStore} {d : SqliteStore} (h : Agree m d) {ops : List Op}
    (hfits : RunFits m ops) : Agree (m.run ops) (d.run ops) := by
  induction ops generalizing m d with
  | nil => exact h
  | cons op ops ih => exact ih (h.call hfits.1).agree hfits.2

end Dsl41.Runner
