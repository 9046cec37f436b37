import Dsl41.Infra.Result
import Dsl41.Runner.MemoryStore
import Dsl41.Runner.SqliteStore
import Mathlib.Data.List.Sort

/-!
# The rows of the two stores

When the two stores hold the same rows, and the invariant that keeps them together: the journal
runs up to the high-water mark, a request id names the row that holds it, the revs count from
one and no number leaves the integers of the database.
-/

namespace Dsl41.Runner

open Infra Infra.Json Canon

/-- The configurations under their revs. -/
def MemoryStore.numbered (m : MemoryStore) : List (Int × ByteArray × Str) :=
  m.configs.zipIdx.map fun c => ((c.2 : Int) + 1, c.1)

def ConfigRow.held (row : ConfigRow) : ByteArray × Str := (row.data, row.digest)

def SnapshotRow.read (seq : Int) (row : SnapshotRow) : Snapshot where
  seq := seq
  state_version := row.state_version
  data := row.data

/-- The two stores hold the same rows. -/
structure SameRows (m : MemoryStore) (d : SqliteStore) : Prop where
  journal : m.rows = d.journal
  last : m.lastSeq = d.lastSeq
  configs : m.numbered = d.configs.map fun r => (r.1, r.2.held)
  snapshots : (m.snapshots.entries.map Prod.snd).Perm (d.snapshots.map fun r => r.2.read r.1)

/-- The same rows, and what keeps them so. -/
structure Agree (m : MemoryStore) (d : SqliteStore) : Prop extends SameRows m d where
  ordered : Ordered d.journal
  seqs : ∀ r ∈ d.journal, 0 < r.1 ∧ r.1 ≤ d.lastSeq
  room : 0 ≤ d.lastSeq ∧ d.lastSeq < 2 ^ 63
  requests : ∀ id r, m.requests.get? id = some r ↔ r ∈ d.journal ∧ r.2.request_id = some id
  named : ∀ k s, m.snapshots.get? k = some s → s.seq = k
  snapshotsOrdered : Ordered d.snapshots
  snapshotSeqs : ∀ r ∈ d.snapshots, -2 ^ 63 ≤ r.1 ∧ r.1 ≤ d.lastSeq

theorem agree_empty : Agree .empty .empty where
  journal := rfl
  last := rfl
  configs := rfl
  snapshots := List.Perm.nil
  ordered := List.Pairwise.nil
  seqs := fun _ h => nomatch h
  room := ⟨le_rfl, by decide⟩
  requests := fun _ _ => ⟨(nomatch ·), fun h => nomatch h.1⟩
  named := fun _ _ h => nomatch h
  snapshotsOrdered := List.Pairwise.nil
  snapshotSeqs := fun _ h => nomatch h

variable {m : MemoryStore} {d : SqliteStore}

theorem Agree.nextSeq (h : Agree m d) : m.next_seq = d.lastSeq + 1 := by
  have hlast := h.last
  rw [MemoryStore.lastSeq] at hlast
  omega

/-! ## Requests -/

section Requests

variable {id : Str} {r : Int × Encoded}

/-- What the index has of an id is what a search of the journal finds. -/
theorem Agree.find_request (h : Agree m d) (id : Str) :
    d.journal.find? (fun r => decide (r.2.request_id = some id)) = m.requests.get? id := by
  cases hfind : d.journal.find? fun r => decide (r.2.request_id = some id) with
  | some r =>
    have hid : r.2.request_id = some id := by simpa using List.find?_some hfind
    exact ((h.requests id r).mpr ⟨List.mem_of_find?_eq_some hfind, hid⟩).symm
  | none =>
    symm
    rw [Option.eq_none_iff_forall_ne_some]
    intro r hr
    obtain ⟨hmem, hid⟩ := (h.requests id r).mp hr
    have hnone := List.find?_eq_none.mp hfind r hmem
    simp [hid] at hnone

/-- An id is in the index when it is in the journal's unique column. -/
theorem Agree.taken_iff (h : Agree m d) (id : Str) :
    m.requests.get? id ≠ none ↔ some id ∈ d.journal.map fun r => r.2.request_id := by
  rw [Option.ne_none_iff_exists', List.mem_map]
  constructor
  · rintro ⟨r, hr⟩
    exact ⟨r, ((h.requests id r).mp hr)⟩
  · rintro ⟨r, hr⟩
    exact ⟨r, (h.requests id r).mpr hr⟩

end Requests

/-! ## Snapshots -/

section Snapshots

theorem Agree.snapshot_iff (h : Agree m d) {k : Int} {s : Snapshot} :
    m.snapshots.get? k = some s ↔ ∃ r ∈ d.snapshots, r.1 = k ∧ r.2.read r.1 = s := by
  have hmem : s ∈ m.snapshots.entries.map Prod.snd ↔ s ∈ d.snapshots.map fun r => r.2.read r.1 :=
    h.snapshots.mem_iff
  constructor
  · intro hget
    have hs : s ∈ m.snapshots.entries.map Prod.snd :=
      List.mem_map.mpr ⟨_, Dict.get?_eq_some.mp hget, rfl⟩
    obtain ⟨r, hr, hread⟩ := List.mem_map.mp (hmem.mp hs)
    refine ⟨r, hr, ?_, hread⟩
    rw [← h.named k s hget, ← hread]
    rfl
  · rintro ⟨r, hr, rfl, rfl⟩
    obtain ⟨e, he, hes⟩ := List.mem_map.mp (h.snapshots.mem_iff.mpr (List.mem_map.mpr ⟨r, hr, rfl⟩))
    have hget : m.snapshots.get? e.1 = some e.2 := Dict.get?_eq_some.mpr he
    have hkey : e.2.seq = e.1 := h.named e.1 e.2 hget
    rw [hes] at hget hkey
    have hseq : r.1 = e.1 := hkey
    rwa [← hseq] at hget

theorem Agree.keys_perm (h : Agree m d) : m.snapshots.keys.Perm (d.snapshots.map Prod.fst) := by
  have hkeys : m.snapshots.keys = (m.snapshots.entries.map Prod.snd).map Snapshot.seq := by
    rw [Dict.keys, List.map_map]
    refine List.map_congr_left fun e he => ?_
    exact (h.named e.1 e.2 (Dict.get?_eq_some.mpr he)).symm
  have hseqs : (d.snapshots.map fun r => r.2.read r.1).map Snapshot.seq = d.snapshots.map Prod.fst := by
    rw [List.map_map]
    rfl
  rw [hkeys, ← hseqs]
  exact h.snapshots.map Snapshot.seq

theorem Agree.keys_sorted (h : Agree m d) : (d.snapshots.map Prod.fst).Pairwise (· < ·) :=
  List.pairwise_map.mpr h.snapshotsOrdered

/-- The sorted keys are the row numbers. -/
theorem Agree.sortedSnapshots (h : Agree m d) : m.sortedSnapshots = d.snapshots.map Prod.fst := by
  have hsorted : m.sortedSnapshots.Pairwise (· ≤ ·) := List.pairwise_insertionSort _ _
  refine (((List.perm_insertionSort _ _).trans h.keys_perm).eq_of_pairwise ?_ hsorted
    (h.keys_sorted.imp le_of_lt))
  intro a b _ _ hab hba
  exact le_antisymm hab hba

theorem Agree.latestSnapshot (h : Agree m d) :
    m.latestSnapshot = d.snapshots.getLast?.map fun r => r.2.read r.1 := by
  rw [MemoryStore.latestSnapshot, h.sortedSnapshots, List.getLast?_map]
  cases hlast : d.snapshots.getLast? with
  | none => rfl
  | some r =>
    rw [Option.map_some, Option.bind_some, Option.map_some, h.snapshot_iff]
    exact ⟨r, List.mem_of_getLast? hlast, rfl, rfl⟩

/-- The keys below the last two are the numbers outside the newest two. -/
theorem mem_dropLast_dropLast {l : List Int} (h : l.Nodup) {k : Int} (hk : k ∈ l) :
    k ∈ l.dropLast.dropLast ↔ k ∉ l.reverse.take 2 := by
  have htwo : l.dropLast.dropLast = l.take (l.length - 2) := by
    rw [List.dropLast_eq_take, List.dropLast_eq_take, List.take_take, List.length_take]
    congr 1
    omega
  have hlast : l.reverse.take 2 = (l.drop (l.length - 2)).reverse := List.take_reverse
  have hsplit : l.take (l.length - 2) ++ l.drop (l.length - 2) = l := List.take_append_drop _ l
  have hdisjoint := List.disjoint_of_nodup_append (hsplit.symm ▸ h)
  rw [htwo, hlast, List.mem_reverse]
  constructor
  · exact fun htake hdrop => hdisjoint htake hdrop
  · intro hdrop
    rw [← hsplit] at hk
    exact (List.mem_append.mp hk).resolve_right hdrop

theorem entries_foldl_erase {κ υ : Type} [DecidableEq κ] : ∀ {ks : List κ} {held : Dict κ υ},
    (ks.foldl (fun held old => held.erase old) held).entries =
      held.entries.filter fun e => decide (e.1 ∉ ks)
  | [], held => by simp
  | k :: ks, held => by
    rw [List.foldl_cons, entries_foldl_erase, Dict.erase, Dict.keep, List.filter_filter]
    refine List.filter_congr fun e _ => ?_
    by_cases hk : e.1 = k <;> by_cases hks : e.1 ∈ ks <;> simp [hk, hks]

end Snapshots

end Dsl41.Runner
