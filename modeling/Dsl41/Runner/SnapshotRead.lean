import Dsl41.Runner.Journal
import Dsl41.Runner.Restore

/-!
# A snapshot read back

The position reads back as it was, and with it the document of a snapshot: its bytes are decoded to
a table that holds the same.
-/

namespace Dsl41.Runner

open Infra Infra.Json Canon

variable {L : Library} {v w : Value} {last : Int}

/-! ## The position read back -/

namespace Position

variable {p p' : Position L} {record : Record} {stamp : L.Instant}

/-- The jobs and instants of the ticks are scalar texts. -/
def Sound (p : Position L) : Prop :=
  ∀ e ∈ p.ticks, isScalarString e.1 = true ∧ isScalarString e.2 = true

theorem sound_empty : (empty : Position L).Sound := fun _ he => absurd he (Finset.notMem_empty _)

theorem reach_ticks (h : p.reach stamp = .ok p') : p'.ticks = p.ticks := by
  obtain ⟨after, -, h⟩ := bind_eq_ok.mp h
  split at h
  · cases h
    rfl
  · cases h
    rfl

theorem advanceFrontier_sound (hp : p.Sound) (h : p.advanceFrontier stamp = .ok p') : p'.Sound := by
  obtain ⟨after, -, h⟩ := bind_eq_ok.mp h
  split at h
  · cases h
    exact fun _ he => absurd he (Finset.notMem_empty _)
  · cases h
    exact hp

theorem tickJob_scalar {body : Value} {job : Str} (hbody : body.IsJson)
    (h : tickJob body = .ok (some job)) : isScalarString job = true := by
  rw [tickJob] at h
  split at h
  · obtain ⟨named, hnamed, h⟩ := bind_eq_ok.mp h
    have hjson : named.IsJson := by
      cases hload : orEmpty (dictGet body (name "payload")) with
      | mapping es =>
        rw [hload] at hnamed
        cases hnamed
        have hes : (orEmpty (dictGet body (name "payload"))).IsJson := isJson_orEmpty (isJson_get hbody)
        rw [hload] at hes
        exact isJson_get hes
      | _ =>
        rw [hload] at hnamed
        cases hnamed
    split at h
    · cases h
      exact hjson
    · cases h
  · cases h

theorem addTick_sound {body : Value} (hp : p.Sound) (hbody : body.IsJson)
    (h : p.addTick stamp body = .ok p') : p'.Sound := by
  rw [addTick] at h
  split at h
  · obtain ⟨job, hjob, h⟩ := bind_eq_ok.mp h
    cases job with
    | none =>
      cases h
      exact hp
    | some job =>
      cases h
      intro e he
      rcases Finset.mem_insert.mp he with rfl | he
      · exact ⟨tickJob_scalar hbody hjob, L.scalar_isoformat _⟩
      · exact hp e he
  · cases h
    exact hp

theorem note_sound (hp : p.Sound) (hbody : record.payload.IsJson) (h : p.note record = .ok p') :
    p'.Sound := by
  obtain ⟨stamp, -, h⟩ := bind_eq_ok.mp h
  cases stamp with
  | none =>
    cases h
    exact hp
  | some stamp =>
    obtain ⟨q, hq, h⟩ := bind_eq_ok.mp h
    have hqsound : q.Sound := by
      rw [Sound, reach_ticks hq]
      exact hp
    split at h
    · obtain ⟨r, hr, h⟩ := bind_eq_ok.mp h
      exact addTick_sound (advanceFrontier_sound hqsound hr) hbody h
    · cases h
      exact hqsound

def fields (p : Position L) : List (String × Value) :=
  [("last_at", instantText p.last_at), ("frontier", instantText p.frontier),
    ("ticks", .list (p.sortedTicks.map fun e => .list [.str e.1, .str e.2]))]

theorem toPayload_eq (p : Position L) : p.toPayload = named p.fields := rfl

theorem isJson_instantText (i : Option L.Instant) : (instantText i).IsJson := by
  cases i with
  | none => trivial
  | some i => exact L.scalar_isoformat i

@[simp] theorem sorted_instantText (i : Option L.Instant) :
    (instantText i).sorted = instantText i := by
  cases i <;> rfl

theorem instant?_instantText (i : Option L.Instant) : instant? (instantText i) = .ok i := by
  cases i with
  | none => rfl
  | some i =>
    rw [instantText, instant?, L.read_written]

theorem mem_sortedTicks {e : Str × Str} : e ∈ p.sortedTicks ↔ e ∈ p.ticks := by
  rw [sortedTicks, List.mem_map]
  constructor
  · rintro ⟨e', he', rfl⟩
    rw [Finset.mem_sort, Finset.mem_image] at he'
    obtain ⟨e, he, rfl⟩ := he'
    exact he
  · intro he
    exact ⟨toLex e, (Finset.mem_sort _).mpr (Finset.mem_image_of_mem _ he), rfl⟩

theorem Sound.isJson (h : p.Sound) : p.toPayload.IsJson := by
  rw [toPayload_eq]
  refine isJson_named (by simp [fields]) ?_
  simp only [fields, List.forall_mem_cons]
  refine ⟨isJson_instantText _, isJson_instantText _, ?_, fun _ hf => nomatch hf⟩
  refine isArray_iff.mpr fun w hw => ?_
  obtain ⟨e, he, rfl⟩ := List.mem_map.mp hw
  obtain ⟨hjob, hinstant⟩ := h e (mem_sortedTicks.mp he)
  exact ⟨hjob, hinstant, trivial⟩

theorem restoreTicks_ok : ∀ (es : List (Str × Str)) (ticks : Finset (Str × Str)),
    (es.map fun e => Value.list [.str e.1, .str e.2]).foldlM (restoreTick L) ticks =
      .ok (es.toFinset ∪ ticks)
  | [], ticks => by
    rw [List.toFinset_nil, Finset.empty_union]
    rfl
  | e :: es, ticks => by
    have hstep : restoreTick L ticks (.list [.str e.1, .str e.2]) = .ok (insert e ticks) := rfl
    rw [List.map_cons, List.foldlM_cons, hstep, List.toFinset_cons, Finset.insert_union,
      ← Finset.union_insert]
    exact restoreTicks_ok es (insert e ticks)

/-- The position reads back as it was. -/
theorem fromPayload_ok (h : p.Sound) : fromPayload p.toPayload.sorted = .ok p := by
  have hjson := h.isJson
  rw [toPayload_eq] at hjson ⊢
  have hlast : dictGet (named p.fields).sorted (name "last_at") = instantText p.last_at := by
    rw [get_of_item (item_named hjson "last_at" rfl), sorted_instantText]
  have hfrontier : dictGet (named p.fields).sorted (name "frontier") = instantText p.frontier := by
    rw [get_of_item (item_named hjson "frontier" rfl), sorted_instantText]
  have hticks : dictGet (named p.fields).sorted (name "ticks") =
      .list (p.sortedTicks.map fun e => .list [.str e.1, .str e.2]) := by
    rw [get_of_item (item_named hjson "ticks" rfl), Value.sorted, Value.sortedArray_eq,
      List.map_map]
    rfl
  have hfinset : p.sortedTicks.toFinset ∪ ∅ = p.ticks := by
    rw [Finset.union_empty]
    ext e
    rw [List.mem_toFinset, mem_sortedTicks]
  simp only [fromPayload, hlast, hfrontier, hticks, instant?_instantText,
    OpenTable.elements_orNothing, restoreTicks_ok, hfinset, bind, Except.bind]
  rfl

end Position

/-! ## The snapshot read back -/

theorem eq_int_of_sorted {i : Int} (h : v.sorted = .int i) : v = .int i := by
  cases v with
  | int j => exact h
  | _ => cases h

theorem forM_ok {α : Type} {f : α → Except Error Unit} : ∀ {l : List α},
    (∀ a ∈ l, f a = .ok ()) → l.forM f = .ok ()
  | [], _ => rfl
  | a :: l, h => by
    show (f a >>= fun _ => l.forM f) = .ok ()
    rw [h a List.mem_cons_self]
    exact forM_ok fun b hb => h b (List.mem_cons_of_mem _ hb)

/-- What a snapshot holds beside the table and the position: the rows as they are dumped, which
their validation takes back, and the runs, each listed with the revision it opened under. -/
structure Beside.Sound {Rows : Type} (validate : Value → Option Rows) (b : Beside L) : Prop where
  oracle : b.oracle.written.IsJson
  rows : ∃ rows, validate b.oracle.written.sorted = some rows
  runs : b.runs.IsJson
  runs_mapping : ∃ es, b.runs = .mapping es
  revs : ∀ e ∈ items b.runs, ∃ kept, e.2 = .list kept ∧
    ∀ run ∈ kept, ∃ rev, item run (name "rev") = .ok (.int rev)
  evidence : b.evidence.IsJson
  evidence_mapping : ∃ es, b.evidence = .mapping es
  applied : b.applied_index ≤ b.committed_index

section Document

variable {Rows : Type} {validate : Value → Option Rows} {b : Beside L} {t : OpenTable}
  {p : Position L}

def Beside.front (b : Beside L) : List (String × Value) :=
  [("committed_index", .int b.committed_index), ("applied_index", .int b.applied_index),
    ("at", Position.instantText b.instant)]

def Beside.fields (b : Beside L) (oracle opened position update : Value) : List (String × Value) :=
  [("state_version", .int STATE_MACHINE_VERSION), ("oracle", oracle), ("frontiers", named b.front),
    ("position", position), ("config_rev", .int b.config_rev), ("open", opened), ("update", update),
    ("runs", b.runs), ("evidence", b.evidence)]

theorem Beside.isJson_front (b : Beside L) : (named b.front).IsJson := by
  refine isJson_named (by simp [Beside.front]) ?_
  simp only [Beside.front, List.forall_mem_cons]
  exact ⟨trivial, trivial, Position.isJson_instantText _, fun _ hf => nomatch hf⟩

theorem Beside.Sound.isJson {oracle opened position update : Value} (h : b.Sound validate)
    (horacle : oracle.IsJson) (hopened : opened.IsJson) (hposition : position.IsJson)
    (hupdate : update.IsJson) : (named (b.fields oracle opened position update)).IsJson := by
  refine isJson_named (by simp [Beside.fields]) ?_
  simp only [Beside.fields, List.forall_mem_cons]
  exact ⟨trivial, horacle, b.isJson_front, hposition, trivial, hopened, hupdate, h.runs, h.evidence,
    fun _ hf => nomatch hf⟩

/-- The document with the text of every instant in its place. -/
theorem Beside.Sound.written {opened position update : Value} (h : b.Sound validate)
    (hopened : opened.IsJson) (hposition : position.IsJson) :
    (named (b.fields b.oracle opened position update)).written =
      named (b.fields b.oracle.written opened position update.written) := by
  rw [written_named]
  simp only [Beside.fields, List.map_cons, List.map_nil, Value.written_of_isJson _ hopened,
    Value.written_of_isJson _ hposition, Value.written_of_isJson _ h.runs, Value.written_of_isJson _ h.evidence,
    Value.written_of_isJson _ b.isJson_front]
  rfl

theorem Beside.frontiers_ok (h : b.applied_index ≤ b.committed_index) :
    frontiers L (named b.front).sorted =
      .ok { committed_index := b.committed_index, applied_index := b.applied_index,
            instant := b.instant } := by
  have hcommitted := item_named b.isJson_front "committed_index" rfl
  have happlied := item_named b.isJson_front "applied_index" rfl
  have hinstant : item (named b.front).sorted (name "at") = .ok (Position.instantText b.instant) := by
    rw [item_named b.isJson_front "at" rfl, Position.sorted_instantText]
  have hfield : ∀ i : Int, L.intField (Value.int i).sorted = some i := L.intField_int
  have hno : ¬b.applied_index > b.committed_index := by omega
  simp only [frontiers, hcommitted, happlied, hinstant, Position.instant?_instantText, hfield, if_neg hno,
    bind, Except.bind]
  rfl

theorem Beside.Sound.checkRevs_ok (h : b.Sound validate) : checkRevs b.runs.sorted = .ok () := by
  obtain ⟨es, hes⟩ := h.runs_mapping
  have hjson := h.runs
  have hrevs := h.revs
  rw [hes] at hjson hrevs ⊢
  rw [checkRevs, Value.sorted, Value.sortKeys_sortedObject]
  refine forM_ok fun e he => ?_
  obtain ⟨x, hx, rfl⟩ := List.mem_map.mp he
  have hx := mem_sortKeys.mp hx
  obtain ⟨kept, hkept, hall⟩ := hrevs x hx
  have hisJson : (Value.list kept).IsJson := hkept ▸ (Value.isObject_iff.mp hjson.2 x hx).2
  rw [hkept, Value.sorted, Value.sortedArray_eq]
  refine forM_ok fun run hrun => ?_
  obtain ⟨held, hheld, rfl⟩ := List.mem_map.mp hrun
  obtain ⟨rev, hrev⟩ := hall held hheld
  have hsorted := item_sorted (isArray_iff.mp hisJson held hheld) hrev
  obtain ⟨fs, hfs⟩ := mapping_of_item hsorted
  have hget : getOf held.sorted (name "rev") = .ok (dictGet held.sorted (name "rev")) := by rw [hfs]; rfl
  rw [hget, get_of_item hsorted]
  rfl

theorem OpenTable.checkBeyond_ok {u : OpenTable} (h : t.Sound L last)
    (hrel : Dict.Rel SameValue u.dispatches t.dispatches) : checkBeyond last u = .ok () := by
  refine forM_ok fun e he => ?_
  obtain ⟨body, hbody, hvw⟩ := hrel.some (Dict.get?_eq_some.mpr he)
  obtain ⟨seq, -, hseq, -, hle, -, -⟩ := (h.dispatches e.1 body hbody).seq
  obtain ⟨x, hx, hxseq⟩ := hvw.symm.item hseq
  rw [eq_int_of_sorted hxseq.same.symm] at hx
  have hno : ¬seq > last := by omega
  simp only [intItem_ok hx, if_neg hno, bind, Except.bind]
  rfl

/-- The document carries no version of its own. -/
theorem versionOk_named {fields : List (String × Value)}
    (h : "artifact_format_version" ∉ fields.map Prod.fst) : (named fields).VersionOk := by
  intro v hv
  obtain ⟨f, hf, hname⟩ := List.mem_map.mp hv
  have hkey : name f.1 = name "artifact_format_version" := congrArg Prod.fst hname
  rw [name_inj] at hkey
  exact absurd (hkey ▸ List.mem_map_of_mem hf) h

/-- The update is read back with the table. -/
theorem OpenTable.withUpdate_same {u : OpenTable} (ht : t.Sound L last)
    (h : u.Same { t with update := none }) : (u.withUpdate (t.update.getD .none).sorted).Same t where
  attempts := h.attempts
  dispatches := h.dispatches
  pending := h.pending
  plans := h.plans
  update := by
    cases hup : t.update with
    | none => exact .none
    | some up =>
      obtain ⟨hjson, es, hes⟩ := ht.update up hup
      have hsame : SameValue up.sorted up :=
        ⟨Value.isJson_sorted _ hjson, hjson, sorted_sorted hjson⟩
      rw [hes] at hsame ⊢
      exact .some hsame

theorem canon_ok_bind {α β : Type} (a : α) (f : α → Except Error β) : canon (.ok a) >>= f = f a := rfl

/-- The document of a snapshot, from the payload of its table. -/
def Beside.document (b : Beside L) (oracle opened update : Value) (p : Position L) : Value :=
  named (b.fields oracle opened p.toPayload update)

theorem OpenTable.Sound.isJson_update (ht : t.Sound L last) : (t.update.getD .none).IsJson := by
  cases hup : t.update with
  | none => trivial
  | some up => exact (ht.update up hup).1

/-- A document of JSON values and instants is written, and decoded as it is with the text of every
instant in its place. -/
theorem encodeSnapshot_ok {opened : Value} (hb : b.Sound validate) (hp : p.Sound)
    (hopened : t.toPayload L = .ok opened) (hpayload : opened.IsJson)
    (hupdate : (t.update.getD .none).written.IsJson) :
    ∃ bytes, encodeSnapshot L b t p = .ok bytes ∧
      (b.document b.oracle.written opened (t.update.getD .none).written p).IsJson ∧
      decode (.inl bytes) =
        .ok (b.document b.oracle.written opened (t.update.getD .none).written p).sorted := by
  have hjson : (b.document b.oracle.written opened (t.update.getD .none).written p).IsJson :=
    hb.isJson hb.oracle hpayload hp.isJson hupdate
  have hversion : (b.document b.oracle.written opened (t.update.getD .none).written p).VersionOk :=
    versionOk_named (by simp [Beside.fields])
  obtain ⟨bytes, hbytes, hdecode⟩ := decode_canonicalBytes hjson hversion
  have hdocument : snapshotDocument L b t p =
      .ok (b.document b.oracle opened (t.update.getD .none) p) := by
    rw [snapshotDocument, hopened]
    rfl
  have hwritten : canonicalBytes (b.document b.oracle opened (t.update.getD .none) p) = .ok bytes := by
    rw [Beside.document, ← canonicalBytes_written, hb.written hpayload hp.isJson]
    exact hbytes
  refine ⟨bytes, ?_, hjson, hdecode⟩
  rw [encodeSnapshot, hdocument, ok_bind, hwritten]
  rfl

/-- The document, as it is decoded, is read. -/
theorem readSnapshot_ok {opened update : Value} {u : OpenTable} (hp : p.Sound) (hb : b.Sound validate)
    (hjson : (b.document b.oracle.written opened update p).IsJson)
    (hu : OpenTable.fromPayload L opened.sorted = .ok u) (hbeyond : checkBeyond last u = .ok ()) :
    ∃ restored, readSnapshot L validate last (b.document b.oracle.written opened update p).sorted =
      .ok restored ∧ restored.openTable = u.withUpdate update.sorted ∧ restored.position = p := by
  rw [Beside.document] at hjson ⊢
  have hversion := item_named hjson "state_version" rfl
  have horacle := item_named hjson "oracle" rfl
  have hfront := item_named hjson "frontiers" rfl
  have hposition := item_named hjson "position" rfl
  have hrev := item_named hjson "config_rev" rfl
  have hopen := item_named hjson "open" rfl
  have hupdate := item_named hjson "update" rfl
  have hruns := item_named hjson "runs" rfl
  have hevidence := item_named hjson "evidence" rfl
  obtain ⟨rows, hrows⟩ := hb.rows
  obtain ⟨es, hes⟩ := hb.runs_mapping
  obtain ⟨fs, hfs⟩ := hb.evidence_mapping
  have hdict : pyDict (orEmpty b.evidence.sorted) = .ok b.evidence.sorted := by
    rw [hfs, Value.sorted, OpenTable.orEmpty_mapping]
    rfl
  have hint : wireInt? (Value.int STATE_MACHINE_VERSION).sorted = some STATE_MACHINE_VERSION := rfl
  have hrevInt : pyInt L (Value.int b.config_rev).sorted = .ok b.config_rev := rfl
  refine ⟨{
    rows, position := p, config_rev := b.config_rev, runs := b.runs.sorted
    evidence := b.evidence.sorted
    openTable := u.withUpdate update.sorted
    frontiers := {
      committed_index := b.committed_index
      applied_index := b.applied_index
      instant := b.instant } }, ?_, rfl, rfl⟩
  simp only [readSnapshot, hversion, hint, hfront, hopen, hu, hbeyond, horacle, hrows,
    Beside.frontiers_ok hb.applied, hposition, Position.fromPayload_ok hp, hrev, hrevInt, hruns,
    pyDict_sorted hes, hb.checkRevs_ok, get_of_item hevidence, hdict, get_of_item hupdate, bind,
    Except.bind, ne_eq, not_true_eq_false, if_false]
  rfl

/-- A document whose table is refused is refused. -/
theorem readSnapshot_refused {opened update : Value} {e : Error}
    (hjson : (b.document b.oracle.written opened update p).IsJson)
    (hu : OpenTable.fromPayload L opened.sorted = .error e) :
    readSnapshot L validate last (b.document b.oracle.written opened update p).sorted = .error e := by
  rw [Beside.document] at hjson ⊢
  have hversion := item_named hjson "state_version" rfl
  have hfront := item_named hjson "frontiers" rfl
  have hopen := item_named hjson "open" rfl
  have hint : wireInt? (Value.int STATE_MACHINE_VERSION).sorted = some STATE_MACHINE_VERSION := rfl
  simp only [readSnapshot, hversion, hint, hfront, hopen, hu, bind, Except.bind, ne_eq,
    not_true_eq_false, if_false]

/-- **A snapshot reads back.** The bytes of a snapshot of a sound table and position are decoded to
the same table, its update with it, and to the position itself, where each open attempt has the
retained first seq. Anywhere else they are refused. The remembered end is not in a snapshot. -/
theorem decodeSnapshot_ok (ht : t.Sound L last) (hp : p.Sound) (hb : b.Sound validate) :
    ∃ bytes, encodeSnapshot L b t p = .ok bytes ∧
      (t.Retains → ∃ restored, decodeSnapshot L validate last bytes = .ok restored ∧
        restored.openTable.Same t ∧ restored.openTable.ended = none ∧ restored.position = p) ∧
      (¬t.Retains → ∃ e, decodeSnapshot L validate last bytes = .error e) := by
  obtain ⟨hash, hscalar, hhash, hopened⟩ := ht.toPayload_ok
  have hpayload := ht.isJson_payload hscalar
  obtain ⟨hreads, hrefuses⟩ := OpenTable.fromPayload_ok ht hpayload hhash
  have hupdate := Value.written_of_isJson _ ht.isJson_update
  obtain ⟨bytes, hbytes, hjson, hdecode⟩ := encodeSnapshot_ok hb hp hopened hpayload
    (hupdate.symm ▸ ht.isJson_update)
  rw [hupdate] at hjson hdecode
  refine ⟨bytes, hbytes, ?_, ?_⟩
  · intro hretains
    obtain ⟨u, hu, hsame, hended⟩ := hreads hretains
    obtain ⟨restored, hread, htable, hposition⟩ :=
      readSnapshot_ok hp hb hjson hu (OpenTable.checkBeyond_ok ht hsame.dispatches)
    refine ⟨restored, ?_, ?_, ?_, hposition⟩
    · rw [decodeSnapshot, hdecode, canon_ok_bind, hread]
    · rw [htable]
      exact OpenTable.withUpdate_same ht hsame
    · rw [htable]
      exact hended
  · intro hretains
    obtain ⟨e, he⟩ := hrefuses hretains
    rw [decodeSnapshot, hdecode, canon_ok_bind, readSnapshot_refused hjson he]
    dsimp only
    split
    · exact ⟨_, rfl⟩
    · exact ⟨_, rfl⟩

end Document

end Dsl41.Runner
