import Dsl41.Runner.History
import Dsl41.Runner.Resume

/-!
# The backfill of a subscriber

A subscriber resuming at an index is served the retained wire records after the last input at or
below it. When inputs above it are gone it is told the first index the store still holds.
-/

namespace Dsl41.Runner

open Infra Infra.Json Canon

variable (L : Library) {Rows : Type} (validate : Value → Option Rows)

/-- What a resuming subscriber is owed: the lowest index the store can still serve when the cursor is
below it, and the retained wire records after the cursor. -/
structure Backfill where
  gap_from : Option Int
  records : List Value

/-- The index of an input record. -/
def inputIndex (record : Record) : Except Error Int := do
  pyInt L (← item record.payload (name "index"))

def isInput (kind : Str) : Bool := kind = name "input"

/-- The index of the first input. -/
def earliestInput : List (Int × Record) → Except Error (Option Int)
  | [] => .ok none
  | (_, record) :: rest =>
    if isInput record.kind then some <$> inputIndex L record else earliestInput rest

/-- The index the next input takes, read from the latest snapshot. -/
def indexAfterSnapshot : Option Snapshot → Except Error Int
  | none => .error (.engineError .headPruned)
  | some stored => do
    let snapshot ← decodeSnapshot L validate stored.seq stored.data
    return snapshot.frontiers.committed_index + 1

/-- What is read of the store: the wire records up to the seam, and what the gap is told by. -/
structure StoreRead where
  wires : List (Record × Option Value)
  pruned : Bool
  earliest : Option Int

def readStore (stored : Except Error (List (Int × Record))) (latest : Option Snapshot) (upto : Int) :
    Except Error StoreRead := do
  let everything ← stored
  let wires ← (everything.filter fun e => decide (e.1 ≤ upto)).mapM fun e => do
    return (e.2, ← wireRecord L e.2)
  let earliest ← earliestInput L everything
  let pruned := everything.head?.any fun e => decide (1 < e.1)
  if pruned && earliest.isNone then
    return { wires, pruned, earliest := some (← indexAfterSnapshot L validate latest) }
  else return { wires, pruned, earliest }

/-- An error of the store, the encoder or the engine is a refusal; another one is raised as it is. -/
def refusing {α : Type} : Except Error α → Except Error α
  | .ok a => .ok a
  | .error e =>
    if e.cls ∈ [.storeError, .canonError, .engineError] then .error .backfillRefused else .error e

/-- The position after the last input whose index is at or below `since`. -/
def cutAfter (since : Int) : Nat → Nat → List (Record × Option Value) → Except Error Nat
  | _, cut, [] => .ok cut
  | position, cut, (record, _) :: rest =>
    if isInput record.kind then do
      let index ← inputIndex L record
      if index ≤ since then cutAfter since (position + 1) (position + 1) rest
      else cutAfter since (position + 1) cut rest
    else cutAfter since (position + 1) cut rest

/-- The wire records owed at `since`, up to the store seq `upto`: what `stored` reads from the first
seq, beside the latest snapshot. -/
def readBackfill (stored : Except Error (List (Int × Record))) (latest : Option Snapshot)
    (since upto : Int) : Except Error Backfill := do
  let read ← refusing (readStore L validate stored latest upto)
  let gap := read.pruned && read.earliest.any fun earliest => decide (max since 0 < earliest - 1)
  let cut ← cutAfter L since 0 0 read.wires
  return { gap_from := if gap then read.earliest else none
           records := (read.wires.drop cut).filterMap Prod.snd }

def MemoryStore.readBackfill (s : MemoryStore) (since upto : Int) : Except Error Backfill :=
  Runner.readBackfill L validate (s.readFrom 0) s.latestSnapshot since upto

def SqliteStore.readBackfill (s : SqliteStore) (since upto : Int) : Except Error Backfill :=
  Runner.readBackfill L validate (s.readFrom 0) s.latestSnapshot since upto

/-! ## What is owed -/

/-- The rows up to a seq. -/
def upTo (upto : Int) (rows : List MemRow) : List MemRow := rows.filter fun r => decide (r.1 ≤ upto)

/-- The number of inputs. -/
def inputs (rows : List MemRow) : Nat := rows.countP fun r => isInput r.2.kind

/-- The index of a row's record. -/
def rowIndex (r : MemRow) : Except Error Int := do inputIndex L (← record r.2)

def rowWire (r : MemRow) : Except Error (Option Value) := do wireRecord L (← record r.2)

/-- An input whose index passes a test. -/
def inputWith (test : Int → Bool) (r : MemRow) : Bool :=
  isInput r.2.kind && match rowIndex L r with
    | .ok i => test i
    | .error _ => false

/-- An input at or below `since`. -/
def atMost (since : Int) : MemRow → Bool := inputWith L fun i => decide (i ≤ since)

/-- An input above `since`. -/
def above (since : Int) : MemRow → Bool := inputWith L fun i => decide (since < i)

/-- The rows after the last input at or below `since`. -/
def following (since : Int) (rows : List MemRow) : List MemRow :=
  rows.rtakeWhile fun r => !atMost L since r

/-- The rows from the first input above `since` on. -/
def fromAbove (since : Int) (rows : List MemRow) : List MemRow :=
  rows.dropWhile fun r => !above L since r

/-- What is sent are the wire records of the rows, one after the other. -/
def Sent (rows : List MemRow) (records : List Value) : Prop :=
  (rows.mapM (rowWire L)).map List.reduceOption = .ok records

/-- The inputs are numbered one after the other. -/
def NumberedInputs : Int → List MemRow → Prop
  | _, [] => True
  | next, r :: rows =>
    if isInput r.2.kind then rowIndex L r = .ok next ∧ NumberedInputs (next + 1) rows
    else NumberedInputs next rows

/-- The latest snapshot, when it reads, names the last input at or below its seq. -/
def SnapshotCounts (log : List MemRow) (latest : Option Snapshot) : Prop :=
  ∀ snapshot ∈ latest, ∀ restored, decodeSnapshot L validate snapshot.seq snapshot.data = .ok restored →
    restored.frontiers.committed_index = inputs (upTo snapshot.seq log)

/-- What a resuming subscriber can rely on, for all that was ever written and what is kept of it. -/
structure Backfill.Serves (since upto : Int) (log kept : List MemRow) (b : Backfill) : Prop where
  /-- The marker names the input after the pruned ones, and goes out exactly when one of these is
  above the cursor. -/
  marker : ∃ gone, log = gone ++ kept ∧
    (b.gap_from = if max since 0 < inputs gone then some (inputs gone + 1 : Int) else none) ∧
    (b.gap_from ≠ none ↔ ∃ r ∈ gone, above L (max since 0) r = true)
  /-- Of what is kept, nothing after the cursor is missing. -/
  retained : Sent L (following L since (upTo upto kept)) b.records
  /-- Without a marker, nothing from the first input above the cursor on is missing. -/
  owed : b.gap_from = none → ∃ front back, b.records = front ++ back ∧
    Sent L (fromAbove L (max since 0) (upTo upto log)) back
  /-- Where the cursor's input is kept, nothing that ever followed it is missing. -/
  whole : kept = log ∨ (∃ r ∈ upTo upto kept, atMost L since r = true) →
    Sent L (following L since (upTo upto log)) b.records

/-! ## Numbered inputs -/

section Numbered

variable {L : Library} {n since c : Int} {rows rows' : List MemRow} {r : MemRow}

theorem inputs_append : inputs (rows ++ rows') = inputs rows + inputs rows' := List.countP_append

theorem inputs_cons : inputs (r :: rows) = inputs rows + if isInput r.2.kind then 1 else 0 :=
  List.countP_cons

theorem numberedInputs_append : NumberedInputs L n (rows ++ rows') ↔
    NumberedInputs L n rows ∧ NumberedInputs L (n + inputs rows) rows' := by
  induction rows generalizing n with
  | nil => simp [NumberedInputs, inputs]
  | cons r rows ih =>
    rw [List.cons_append, NumberedInputs, NumberedInputs, inputs_cons]
    split
    · have hnext : n + 1 + inputs rows = n + ((inputs rows + 1 : Nat) : Int) := by omega
      rw [ih, hnext, and_assoc]
    · rw [ih, Nat.add_zero]

/-- An input carries a number of its own, between the first and the last. -/
theorem NumberedInputs.index (h : NumberedInputs L n rows) (hr : r ∈ rows) (hi : isInput r.2.kind = true) :
    ∃ i, rowIndex L r = .ok i ∧ n ≤ i ∧ i < n + inputs rows := by
  induction rows generalizing n with
  | nil => cases hr
  | cons a rows ih =>
    rw [inputs_cons]
    rw [NumberedInputs] at h
    rcases List.mem_cons.mp hr with rfl | hr
    · rw [if_pos hi] at h
      rw [if_pos hi]
      exact ⟨n, h.1, le_rfl, by omega⟩
    · split at h
      · next ha =>
        obtain ⟨i, hindex, hlow, hhigh⟩ := ih h.2 hr
        rw [if_pos ha]
        exact ⟨i, hindex, by omega, by omega⟩
      · next ha =>
        obtain ⟨i, hindex, hlow, hhigh⟩ := ih h hr
        rw [if_neg ha]
        exact ⟨i, hindex, hlow, by omega⟩

/-- The last input carries the last number. -/
theorem NumberedInputs.last (h : NumberedInputs L n rows) (hpos : 0 < inputs rows) :
    ∃ r ∈ rows, isInput r.2.kind = true ∧ rowIndex L r = .ok (n + inputs rows - 1) := by
  induction rows generalizing n with
  | nil => exact absurd hpos (Nat.lt_irrefl 0)
  | cons a rows ih =>
    rw [inputs_cons] at hpos ⊢
    rw [NumberedInputs] at h
    split at h
    · next ha =>
      rw [if_pos ha]
      by_cases hrest : 0 < inputs rows
      · obtain ⟨r, hr, hi, hindex⟩ := ih h.2 hrest
        refine ⟨r, List.mem_cons_of_mem _ hr, hi, ?_⟩
        rw [hindex]
        congr 1
        push_cast
        omega
      · refine ⟨a, List.mem_cons_self, ha, ?_⟩
        rw [h.1]
        congr 1
        push_cast
        omega
    · next ha =>
      rw [if_neg ha] at hpos ⊢
      obtain ⟨r, hr, hi, hindex⟩ := ih h (by omega)
      exact ⟨r, List.mem_cons_of_mem _ hr, hi, hindex⟩

theorem inputWith_iff {test : Int → Bool} : inputWith L test r = true ↔
    isInput r.2.kind = true ∧ ∃ i, rowIndex L r = .ok i ∧ test i = true := by
  unfold inputWith
  rw [Bool.and_eq_true]
  cases rowIndex L r with
  | error e => simp
  | ok i => simp

theorem atMost_iff : atMost L since r = true ↔
    isInput r.2.kind = true ∧ ∃ i, rowIndex L r = .ok i ∧ i ≤ since := by
  simp [atMost, inputWith_iff]

theorem above_iff : above L since r = true ↔
    isInput r.2.kind = true ∧ ∃ i, rowIndex L r = .ok i ∧ since < i := by
  simp [above, inputWith_iff]

/-- Some input is above a cursor exactly when there are more inputs than it counts. -/
theorem NumberedInputs.exists_above (h : NumberedInputs L 1 rows) (hc : 0 ≤ c) :
    (∃ r ∈ rows, above L c r = true) ↔ c < inputs rows := by
  constructor
  · rintro ⟨r, hr, habove⟩
    obtain ⟨hi, i, hindex, hlt⟩ := above_iff.mp habove
    obtain ⟨i', hindex', -, hhigh⟩ := h.index hr hi
    rw [hindex'] at hindex
    cases hindex
    omega
  · intro hlt
    obtain ⟨r, hr, hi, hindex⟩ := h.last (by omega)
    exact ⟨r, hr, above_iff.mpr ⟨hi, _, hindex, by omega⟩⟩

/-- No input at or below a cursor follows one above it. -/
theorem NumberedInputs.fromAbove (h : NumberedInputs L n rows) (hle : since ≤ c) :
    ∀ r ∈ fromAbove L c rows, atMost L since r = false := by
  induction rows generalizing n with
  | nil => exact fun r hr => nomatch hr
  | cons a rows ih =>
    rw [Runner.fromAbove, List.dropWhile_cons]
    split
    · rw [NumberedInputs] at h
      split at h
      · exact ih h.2
      · exact ih h
    · next ha =>
      have habove : above L c a = true := by simpa using ha
      obtain ⟨hi, i, hindex, hlt⟩ := above_iff.mp habove
      have hfirst : n = i := by
        rw [NumberedInputs, if_pos hi, hindex] at h
        cases h.1
        rfl
      intro r hr
      rw [Bool.eq_false_iff]
      intro hat
      obtain ⟨hri, k, hk, hkle⟩ := atMost_iff.mp hat
      obtain ⟨k', hk', hlow, -⟩ := h.index hr hri
      rw [hk'] at hk
      cases hk
      omega

end Numbered

/-! ## What the read finds -/

section Read

variable {L : Library} {n since upto : Int} {rows : List MemRow} {r : MemRow}
  {everything : List (Int × Record)} {wires : List (Record × Option Value)}

/-- A row and the record read of it. -/
def ReadsAs (r : MemRow) (e : Int × Record) : Prop := SqliteStore.recordOf r = .ok e

theorem ReadsAs.seq {e : Int × Record} (h : ReadsAs r e) : e.1 = r.1 ∧ record r.2 = .ok e.2 := by
  obtain ⟨here, hhere, h⟩ := bind_eq_ok.mp h
  cases h
  exact ⟨rfl, hhere⟩

theorem record_kind {row : Encoded} {here : Record} (h : record row = .ok here) : here.kind = row.kind := by
  obtain ⟨at_utc, -, h⟩ := bind_eq_ok.mp h
  obtain ⟨payload, -, h⟩ := bind_eq_ok.mp h
  cases h
  rfl

theorem rowIndex_of_record {here : Record} (h : record r.2 = .ok here) :
    rowIndex L r = inputIndex L here := by
  rw [rowIndex, h]
  rfl

theorem earliestInput_numbered (hread : List.Forall₂ ReadsAs rows everything)
    (hnumbered : NumberedInputs L n rows) :
    earliestInput L everything = .ok (if 0 < inputs rows then some n else none) := by
  induction hread with
  | nil => rfl
  | @cons r e _ _ hhere _ ih =>
    obtain ⟨-, hrecord⟩ := hhere.seq
    obtain ⟨seq, here⟩ := e
    rw [earliestInput, record_kind hrecord, inputs_cons]
    rw [NumberedInputs] at hnumbered
    split at hnumbered
    · next hi =>
      have hindex : inputIndex L here = .ok n := by
        rw [← rowIndex_of_record hrecord]
        exact hnumbered.1
      rw [if_pos hi, if_pos hi, if_pos (Nat.succ_pos _), hindex]
      rfl
    · next hi =>
      rw [if_neg hi, if_neg hi, Nat.add_zero]
      exact ih hnumbered

/-- A row, and its record beside the wire record. -/
def Wires (L : Library) (r : MemRow) (w : Record × Option Value) : Prop :=
  record r.2 = .ok w.1 ∧ wireRecord L w.1 = .ok w.2

theorem Wires.rowWire {w : Record × Option Value} (h : Wires L r w) : rowWire L r = .ok w.2 := by
  rw [Runner.rowWire, h.1]
  exact h.2

theorem forall₂_wires (hread : List.Forall₂ ReadsAs rows everything)
    (hwires : everything.mapM (fun e => do return (e.2, ← wireRecord L e.2)) = .ok wires) :
    List.Forall₂ (Wires L) rows wires := by
  have hsteps := mapM_inv hwires
  clear hwires
  induction hread generalizing wires with
  | nil =>
    cases hsteps
    exact .nil
  | cons hhere _ ih =>
    cases hsteps with
    | cons hstep hrest =>
      obtain ⟨wire, hwire, hstep⟩ := bind_eq_ok.mp hstep
      cases hstep
      exact .cons ⟨hhere.seq.2, hwire⟩ (ih hrest)

theorem sent_of_wires (h : List.Forall₂ (Wires L) rows wires) :
    Sent L rows (wires.filterMap Prod.snd) := by
  have hmap : rows.mapM (rowWire L) = .ok (wires.map Prod.snd) := by
    rw [mapM_eq_ok, List.forall₂_map_right_iff]
    exact h.imp fun _ _ hw => hw.rowWire
  rw [Sent, hmap]
  show Except.ok (wires.map Prod.snd).reduceOption = _
  rw [List.reduceOption, List.filterMap_map]
  rfl

/-- The record's reading of the test a row is put to. -/
def reaches (L : Library) (since : Int) (w : Record × Option Value) : Bool :=
  isInput w.1.kind && match inputIndex L w.1 with
    | .ok i => decide (i ≤ since)
    | .error _ => false

theorem Wires.reaches {w : Record × Option Value} (h : Wires L r w) :
    (!atMost L since r) = !reaches L since w := by
  rw [Runner.reaches, atMost, inputWith, record_kind h.1, rowIndex_of_record h.1]

/-- One turn of the loop moves the cut behind a record it reaches. -/
theorem cutAfter_cons {w : Record × Option Value} {position cut k : Nat}
    (h : cutAfter L since position cut (w :: wires) = .ok k) :
    (reaches L since w = true ∧ cutAfter L since (position + 1) (position + 1) wires = .ok k) ∨
      (reaches L since w = false ∧ cutAfter L since (position + 1) cut wires = .ok k) := by
  rw [cutAfter] at h
  unfold reaches
  split at h
  · next hi =>
    obtain ⟨i, hindex, h⟩ := bind_eq_ok.mp h
    rw [hi, hindex, Bool.true_and]
    dsimp only
    split at h
    · next hle => exact Or.inl ⟨decide_eq_true hle, h⟩
    · next hle => exact Or.inr ⟨decide_eq_false hle, h⟩
  · next hi => exact Or.inr ⟨by rw [Bool.eq_false_iff.mpr hi]; rfl, h⟩

/-- The loop stops after the last input it reaches. -/
theorem cutAfter_spec {position cut k : Nat} (h : cutAfter L since position cut wires = .ok k) :
    (k = cut ∧ ∀ w ∈ wires, reaches L since w = false) ∨
      ∃ j, k = position + j ∧ (∃ w ∈ wires, reaches L since w = true) ∧
        wires.drop j = wires.rtakeWhile fun w => !reaches L since w := by
  induction wires generalizing position cut with
  | nil =>
    cases h
    exact Or.inl ⟨rfl, fun w hw => nomatch hw⟩
  | cons w wires ih =>
    have later : ∀ {j : Nat}, (∃ v ∈ wires, reaches L since v = true) →
        wires.drop j = wires.rtakeWhile (fun v => !reaches L since v) →
        (∃ v ∈ w :: wires, reaches L since v = true) ∧
          (w :: wires).drop (1 + j) = (w :: wires).rtakeWhile fun v => !reaches L since v := by
      rintro j ⟨v, hv, hreach⟩ hdrop
      refine ⟨⟨v, List.mem_cons_of_mem _ hv, hreach⟩, ?_⟩
      rw [Nat.add_comm, List.drop_succ_cons, hdrop]
      exact (rtakeWhile_append_of_mem (l := [w]) hv (by rw [hreach]; rfl)).symm
    rcases cutAfter_cons h with ⟨hhead, h⟩ | ⟨hhead, h⟩
    · rcases ih h with ⟨rfl, hnone⟩ | ⟨j, rfl, hsome, hdrop⟩
      · refine Or.inr ⟨1, rfl, ⟨w, List.mem_cons_self, hhead⟩, ?_⟩
        have hall : ∀ v ∈ wires, (!reaches L since v) = true := fun v hv => by rw [hnone v hv]; rfl
        have happend := rtakeWhile_append_of_forall (l := [w]) hall
        rw [List.singleton_append] at happend
        rw [happend, List.drop_succ_cons, List.drop_zero]
        simp [List.rtakeWhile, hhead]
      · obtain ⟨hsome, hdrop⟩ := later hsome hdrop
        exact Or.inr ⟨1 + j, Nat.add_assoc _ _ _, hsome, hdrop⟩
    · rcases ih h with ⟨rfl, hnone⟩ | ⟨j, rfl, hsome, hdrop⟩
      · refine Or.inl ⟨rfl, fun v hv => ?_⟩
        rcases List.mem_cons.mp hv with rfl | hv
        · exact hhead
        · exact hnone v hv
      · obtain ⟨hsome, hdrop⟩ := later hsome hdrop
        exact Or.inr ⟨1 + j, Nat.add_assoc _ _ _, hsome, hdrop⟩

/-- What is left after the cut is what follows the last input the loop reaches. -/
theorem drop_cutAfter {k : Nat} (h : cutAfter L since 0 0 wires = .ok k) :
    wires.drop k = wires.rtakeWhile fun w => !reaches L since w := by
  rcases cutAfter_spec h with ⟨rfl, hnone⟩ | ⟨j, rfl, -, hdrop⟩
  · rw [List.drop_zero]
    refine (List.rtakeWhile_eq_self_iff.mpr fun w hw => ?_).symm
    rw [hnone w hw]
    rfl
  · rw [Nat.zero_add]
    exact hdrop

end Read

/-! ## What a subscriber is served -/

section Serves

variable {L : Library} {Rows : Type} {validate : Value → Option Rows} {log rows : List MemRow}
  {s : MemoryStore} {since upto : Int} {b : Backfill} {stored : Except Error (List (Int × Record))}
  {latest : Option Snapshot} {read : StoreRead} {everything : List (Int × Record)}

theorem refusing_eq_ok {α : Type} {x : Except Error α} {a : α} (h : refusing x = .ok a) : x = .ok a := by
  cases x with
  | ok b => exact h
  | error e =>
    unfold refusing at h
    dsimp only at h
    split at h
    · cases h
    · cases h

theorem readStore_ok (h : readStore L validate stored latest upto = .ok read) :
    ∃ everything earliest, stored = .ok everything ∧
      (everything.filter fun e => decide (e.1 ≤ upto)).mapM
        (fun e => do return (e.2, ← wireRecord L e.2)) = .ok read.wires ∧
      earliestInput L everything = .ok earliest ∧
      (read.pruned = everything.head?.any fun e => decide (1 < e.1)) ∧
      (read.earliest = earliest ∨
        ∃ i, indexAfterSnapshot L validate latest = .ok i ∧ read.earliest = some i ∧ earliest = none) ∧
      (read.pruned = true → read.earliest ≠ none) := by
  obtain ⟨everything, hstored, h⟩ := bind_eq_ok.mp h
  obtain ⟨wires, hwires, h⟩ := bind_eq_ok.mp h
  obtain ⟨earliest, hearliest, h⟩ := bind_eq_ok.mp h
  dsimp only at h
  split at h
  · next hcond =>
    obtain ⟨i, hi, h⟩ := bind_eq_ok.mp h
    cases h
    rw [Bool.and_eq_true, Option.isNone_iff_eq_none] at hcond
    exact ⟨everything, earliest, hstored, hwires, hearliest, rfl, Or.inr ⟨i, hi, rfl, hcond.2⟩,
      fun _ => Option.some_ne_none i⟩
  · next hcond =>
    cases h
    refine ⟨everything, earliest, hstored, hwires, hearliest, rfl, Or.inl rfl, fun hpruned hnone => hcond ?_⟩
    rw [Bool.and_eq_true, Option.isNone_iff_eq_none]
    exact ⟨hpruned, hnone⟩

theorem upTo_append {rows' : List MemRow} : upTo upto (rows ++ rows') = upTo upto rows ++ upTo upto rows' :=
  List.filter_append _ _

/-- When nothing kept is an input, the inputs up to the snapshot are those that are gone. -/
theorem inputs_upTo {gone : List MemRow} {seq : Int} (hgone : ∀ r ∈ gone, r.1 < seq)
    (hnone : inputs rows = 0) : inputs (upTo seq (gone ++ rows)) = inputs gone := by
  have hall : upTo seq gone = gone :=
    List.filter_eq_self.mpr fun r hr => decide_eq_true (le_of_lt (hgone r hr))
  have hle : inputs (upTo seq rows) ≤ inputs rows := List.filter_sublist.countP_le
  rw [upTo_append, inputs_append, hall]
  omega

/-- The first index the store still holds is the one after the inputs that are gone. -/
theorem earliest_eq {gone : List MemRow}
    (hgone : ∀ r ∈ gone, ∃ snapshot, latest = some snapshot ∧ r.1 < snapshot.seq)
    (hcounts : SnapshotCounts L validate (gone ++ rows) latest) {earliest : Option Int}
    (hearliest : earliest = if 0 < inputs rows then some (1 + inputs gone : Int) else none)
    (hread : read.earliest = earliest ∨
      ∃ i, indexAfterSnapshot L validate latest = .ok i ∧ read.earliest = some i ∧ earliest = none)
    (hsome : read.earliest ≠ none) (hne : gone ≠ []) : read.earliest = some (inputs gone + 1 : Int) := by
  rcases hread with heq | ⟨i, hi, heq, hnone⟩
  · rw [heq, hearliest] at hsome ⊢
    split
    · rw [Int.add_comm]
    · next hpos => exact absurd (if_neg hpos) hsome
  · have hzero : inputs rows = 0 := by
      by_contra hpos
      rw [hearliest, if_pos (Nat.pos_of_ne_zero hpos)] at hnone
      cases hnone
    obtain ⟨r, hr⟩ := List.exists_mem_of_ne_nil gone hne
    obtain ⟨snapshot, hlatest, -⟩ := hgone r hr
    have hbelow : ∀ r ∈ gone, r.1 < snapshot.seq := by
      intro r hr
      obtain ⟨snapshot', hlatest', hlt⟩ := hgone r hr
      rw [hlatest] at hlatest'
      cases hlatest'
      exact hlt
    rw [hlatest] at hi
    obtain ⟨restored, hrestored, hi⟩ := bind_eq_ok.mp hi
    cases hi
    rw [heq, hcounts snapshot hlatest restored hrestored, inputs_upTo hbelow hzero]

theorem head_any (hreads : List.Forall₂ ReadsAs rows everything) :
    (everything.head?.any fun e => decide (1 < e.1)) = rows.head?.any fun r => decide (1 < r.1) := by
  cases hreads with
  | nil => rfl
  | cons hhere _ =>
    rw [List.head?_cons, List.head?_cons, Option.any_some, Option.any_some, hhere.seq.1]

theorem sent_append {rows' : List MemRow} {records : List Value} (h : Sent L (rows ++ rows') records) :
    ∃ front back, records = front ++ back ∧ Sent L rows' back := by
  unfold Sent at h
  rw [List.mapM_append] at h
  obtain ⟨wires, hwires, hrecords⟩ := map_eq_ok.mp h
  obtain ⟨front, -, hwires⟩ := bind_eq_ok.mp hwires
  obtain ⟨back, hback, hwires⟩ := bind_eq_ok.mp hwires
  cases hwires
  refine ⟨front.reduceOption, back.reduceOption, ?_, ?_⟩
  · rw [← hrecords, List.reduceOption, List.filterMap_append]
  · rw [Sent, hback]
    rfl

/-- The rows up to a seq begin the table. -/
theorem NumberedInputs.upTo {n : Int} (h : NumberedInputs L n rows) (hordered : Ordered rows) :
    NumberedInputs L n (upTo upto rows) := by
  rw [← hordered.split upto] at h
  exact (numberedInputs_append.mp h).1

/-- What follows the cursor ends with what follows the first input above it. -/
theorem following_split {c : Int} (h : ∀ r ∈ fromAbove L c rows, atMost L since r = false) :
    following L since rows =
      following L since (rows.takeWhile fun r => !above L c r) ++ fromAbove L c rows := by
  calc following L since rows
      = following L since (rows.takeWhile (fun r => !above L c r) ++ fromAbove L c rows) :=
        congrArg (following L since) List.takeWhile_append_dropWhile.symm
    _ = _ := rtakeWhile_append_of_forall fun r hr => by rw [h r hr]; rfl

/-- Every answered read sends what is kept after the cursor. -/
theorem Holds.sent (h : Holds log s) (hb : s.readBackfill L validate since upto = .ok b) :
    Sent L (following L since (upTo upto s.rows)) b.records := by
  obtain ⟨read, hread, hb⟩ := bind_eq_ok.mp hb
  obtain ⟨k, hcut, hb⟩ := bind_eq_ok.mp hb
  cases hb
  obtain ⟨everything, -, hstored, hwires, -⟩ := readStore_ok (refusing_eq_ok hread)
  rw [h.readFrom] at hstored
  have hreads : List.Forall₂ ReadsAs s.rows everything := mapM_inv hstored
  have hkept : List.Forall₂ (Wires L) (upTo upto s.rows) read.wires :=
    forall₂_wires (forall₂_filter hreads fun _ _ he => by rw [he.seq.1]) hwires
  show Sent L _ ((read.wires.drop k).filterMap Prod.snd)
  rw [drop_cutAfter hcut]
  exact sent_of_wires (forall₂_rtakeWhile hkept fun _ _ hw => hw.reaches)

/-- Every answered read serves what it should. -/
theorem Holds.serves (h : Holds log s) (hnumbered : NumberedInputs L 1 log)
    (hcounts : SnapshotCounts L validate log s.latestSnapshot)
    (hb : s.readBackfill L validate since upto = .ok b) : b.Serves L since upto log s.rows := by
  obtain ⟨gone, hlog, hgone, hpruned⟩ := h.gone
  have hretained := h.sent hb
  obtain ⟨read, hread, hb⟩ := bind_eq_ok.mp hb
  obtain ⟨k, hcut, hb⟩ := bind_eq_ok.mp hb
  cases hb
  obtain ⟨everything, earliest, hstored, -, hearliest, hflag, hfirst, hsome⟩ :=
    readStore_ok (refusing_eq_ok hread)
  rw [h.readFrom] at hstored
  have hreads : List.Forall₂ ReadsAs s.rows everything := mapM_inv hstored
  have hsplit := numberedInputs_append.mp (hlog ▸ hnumbered)
  have hordered : Ordered s.rows := (List.pairwise_append.mp (hlog ▸ h.ordered)).2.1
  have hmore := hsplit.1.exists_above (c := max since 0) (le_max_right _ _)
  rw [earliestInput_numbered hreads hsplit.2] at hearliest
  rw [head_any hreads] at hflag
  have hgap : (if read.pruned && read.earliest.any (fun earliest => decide (max since 0 < earliest - 1))
      then read.earliest else none) =
      if max since 0 < inputs gone then some (inputs gone + 1 : Int) else none := by
    by_cases hne : gone = []
    · have hnot : read.pruned = false := by
        rw [hflag, Bool.eq_false_iff]
        exact fun hany => hpruned.mp hany hne
      have hzero : ¬max since 0 < (inputs gone : Int) := by
        rw [hne]
        exact not_lt.mpr (le_max_right _ _)
      rw [hnot, if_neg hzero]
      rfl
    · have hyes : read.pruned = true := hflag.trans (hpruned.mpr hne)
      have hindex : read.earliest = some (inputs gone + 1 : Int) :=
        earliest_eq hgone (hlog ▸ hcounts) (Except.ok.inj hearliest).symm hfirst (hsome hyes) hne
      rw [hyes, hindex, Bool.true_and, Option.any_some]
      simp
  refine ⟨⟨gone, hlog, hgap, ?_⟩, hretained, ?_, ?_⟩
  · dsimp only
    rw [hgap, hmore]
    split
    · next hlt => exact ⟨fun _ => hlt, fun _ => Option.some_ne_none _⟩
    · next hlt => exact ⟨fun hne => absurd rfl hne, fun habove => absurd habove hlt⟩
  · intro hnone
    dsimp only at hnone
    have hnot : ¬max since 0 < (inputs gone : Int) := by
      intro hlt
      rw [hgap, if_pos hlt] at hnone
      cases hnone
    have hfrom : fromAbove L (max since 0) (upTo upto log) = fromAbove L (max since 0) (upTo upto s.rows) := by
      rw [hlog, upTo_append]
      refine List.dropWhile_append_of_pos fun r hr => ?_
      rw [Bool.not_eq_true', Bool.eq_false_iff]
      exact fun habove => hnot (hmore.mp ⟨r, List.mem_of_mem_filter hr, habove⟩)
    have hupTo : NumberedInputs L (1 + inputs gone) (upTo upto s.rows) := hsplit.2.upTo hordered
    have hfollow := following_split (hupTo.fromAbove (le_max_left since 0))
    rw [hfrom]
    rw [hfollow] at hretained
    exact sent_append hretained
  · rintro (hall | ⟨r, hr, hat⟩)
    · rw [← hall]
      exact hretained
    · have hsame : following L since (upTo upto log) = following L since (upTo upto s.rows) := by
        rw [hlog, upTo_append]
        exact rtakeWhile_append_of_mem hr (by rw [hat]; rfl)
      rw [hsame]
      exact hretained

end Serves

/-- Over a history whose inputs are numbered as they are admitted, whichever store keeps it, every
answered read of the backfill serves what it should. -/
theorem backfill_serves (L : Library) {Rows : Type} (validate : Value → Option Rows) (ops : List Op)
    (since upto : Int) (b : Backfill) (hnumbered : NumberedInputs L 1 (written .empty ops))
    (hcounts : SnapshotCounts L validate (written .empty ops) (MemoryStore.empty.run ops).latestSnapshot)
    (hb : (MemoryStore.empty.run ops).readBackfill L validate since upto = .ok b ∨
      RunFits .empty ops ∧ (SqliteStore.empty.run ops).readBackfill L validate since upto = .ok b) :
    b.Serves L since upto (written .empty ops) (MemoryStore.empty.run ops).rows := by
  have hholds := holds_run ops
  rcases hb with hb | ⟨hfits, hb⟩
  · exact hholds.serves hnumbered hcounts hb
  · have hagree := agree_empty.after_run hfits
    rw [SqliteStore.readBackfill, ← hagree.readFrom ⟨by decide, by decide⟩] at hb
    refine hholds.serves hnumbered hcounts ?_
    rw [MemoryStore.readBackfill, hagree.latestSnapshot]
    exact hb

/-! ## The records before the first input that is kept -/

def inputRecord (index : Int) : Record := recordOf "input" [("index", .int index)]

def decisionRecord (index : Int) : Record :=
  recordOf "decision" [("index", .int index), ("request_id", .none), ("decision", .str (name "applied"))]

/-- Two inputs and their decisions, a snapshot, and a pruning of the first input and its decision. -/
def decisionPruned : List Op :=
  [.append [inputRecord 1], .append [decisionRecord 1], .append [inputRecord 2],
    .append [decisionRecord 2], .putSnapshot 4 STATE_MACHINE_VERSION .empty,
    .pruneBefore 3 (.naive { newYear with year := 2025 })]

instance (L : Library) : ∀ (n : Int) (rows : List MemRow), Decidable (NumberedInputs L n rows)
  | _, [] => inferInstanceAs (Decidable True)
  | n, r :: rows =>
    have := instDecidableNumberedInputs L (n + 1) rows
    have := instDecidableNumberedInputs L n rows
    inferInstanceAs (Decidable (if isInput r.2.kind then rowIndex L r = .ok n ∧ NumberedInputs L (n + 1) rows
      else NumberedInputs L n rows))

-- a term of this type would have it evaluated over the whole run
attribute [local irreducible] NumberedInputs

theorem decisionPruned_ok : NumberedInputs (plainLibrary emptyDigest) 1 (written .empty decisionPruned) ∧
    SnapshotCounts (plainLibrary emptyDigest) anyRows (written .empty decisionPruned)
      (MemoryStore.empty.run decisionPruned).latestSnapshot := by
  refine ⟨by decide +kernel, ?_⟩
  have hlatest : (MemoryStore.empty.run decisionPruned).latestSnapshot =
      some { seq := 4, state_version := STATE_MACHINE_VERSION, data := .empty } := by decide +kernel
  rw [hlatest]
  rintro snapshot ⟨⟩ restored hrestored
  cases hrestored

theorem decisionPruned_read : ∃ b, (MemoryStore.empty.run decisionPruned).readBackfill
    (plainLibrary emptyDigest) anyRows 1 4 = .ok b ∧ b.gap_from = none ∧ b.records.length = 2 := by
  have hread : ((MemoryStore.empty.run decisionPruned).readBackfill (plainLibrary emptyDigest) anyRows
      1 4).toOption.any (fun b => b.gap_from.isNone && b.records.length = 2) = true := by
    decide +kernel
  obtain ⟨b, hb, hserved⟩ := exists_of_any hread
  rw [Bool.and_eq_true, Option.isNone_iff_eq_none, decide_eq_true_iff] at hserved
  exact ⟨b, hb, hserved⟩

theorem backfill_serves_pruned : ∃ b, (MemoryStore.empty.run decisionPruned).readBackfill
      (plainLibrary emptyDigest) anyRows 1 4 = .ok b ∧
    b.Serves (plainLibrary emptyDigest) 1 4 (written .empty decisionPruned)
      (MemoryStore.empty.run decisionPruned).rows := by
  obtain ⟨b, hb, -⟩ := decisionPruned_read
  exact ⟨b, hb, backfill_serves _ anyRows decisionPruned 1 4 b decisionPruned_ok.1 decisionPruned_ok.2
    (Or.inl hb)⟩

/-- The decision of the cursor's own input is gone, and no marker says so. -/
theorem backfill_misses : NumberedInputs (plainLibrary emptyDigest) 1 (written .empty decisionPruned) ∧
    ∃ b, (MemoryStore.empty.run decisionPruned).readBackfill (plainLibrary emptyDigest) anyRows 1 4 = .ok b ∧
      b.gap_from = none ∧
      ¬Sent (plainLibrary emptyDigest)
        (following (plainLibrary emptyDigest) 1 (upTo 4 (written .empty decisionPruned))) b.records := by
  refine ⟨decisionPruned_ok.1, ?_⟩
  obtain ⟨b, hb, hgap, hlength⟩ := decisionPruned_read
  refine ⟨b, hb, hgap, fun hsent => ?_⟩
  have howed : (((following (plainLibrary emptyDigest) 1 (upTo 4 (written .empty decisionPruned))).mapM
      (rowWire (plainLibrary emptyDigest))).map List.reduceOption).toOption.any
        (fun records => records.length = 3) = true := by
    decide +kernel
  obtain ⟨records, hrecords, hthree⟩ := exists_of_any howed
  rw [Sent, hrecords] at hsent
  cases hsent
  rw [hlength] at hthree
  cases hthree

end Dsl41.Runner
