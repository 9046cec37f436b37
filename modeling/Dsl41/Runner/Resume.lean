import Dsl41.Runner.SnapshotRead

/-!
# Resuming from a snapshot

A start restores the open table and the position from the snapshot and folds the records after it
into them. What it gets is what the writer had: the fold of every record from the first.
-/

namespace Dsl41.Runner

open Infra Infra.Json Canon

variable {L : Library}

/-! ## The fold -/

/-- The records folded into the table and the position, one after the other. -/
def fold (held : OpenTable × Position L) (records : List (Int × Record)) :
    Except Error (OpenTable × Position L) :=
  records.foldlM (fun held e => do return (← held.1.note L e.1 e.2, ← held.2.note e.2)) held

section Fold

variable {t t' : OpenTable} {p p' : Position L} {record : Record} {records rest : List Record}
  {seq : Int} {j j' : Journal L}

theorem fold_cons : fold (t, p) (Journal.numbered seq (record :: records)) = .ok (t', p') ↔
    ∃ u q, t.note L seq record = .ok u ∧ p.note record = .ok q ∧
      fold (u, q) (Journal.numbered (seq + 1) records) = .ok (t', p') := by
  rw [Journal.numbered, fold, List.foldlM_cons]
  constructor
  · intro h
    obtain ⟨⟨u, q⟩, hstep, h⟩ := bind_eq_ok.mp h
    obtain ⟨u', hu, hstep⟩ := bind_eq_ok.mp hstep
    obtain ⟨q', hq, hstep⟩ := bind_eq_ok.mp hstep
    cases hstep
    exact ⟨u, q, hu, hq, h⟩
  · rintro ⟨u, q, hu, hq, h⟩
    rw [hu, hq]
    exact h

theorem fold_append : fold (t, p) (Journal.numbered seq (records ++ rest)) =
    (fold (t, p) (Journal.numbered seq records) >>= fun held =>
      fold held (Journal.numbered (seq + records.length) rest)) := by
  have hsplit : ∀ (l : List Record) (seq : Int), Journal.numbered seq (l ++ rest) =
      Journal.numbered seq l ++ Journal.numbered (seq + l.length) rest := by
    intro l
    induction l with
    | nil => intro seq; simp [Journal.numbered]
    | cons r l ih =>
      intro seq
      rw [List.cons_append, Journal.numbered, ih, Journal.numbered, List.cons_append,
        List.length_cons]
      congr 3
      push_cast
      omega
  rw [hsplit, fold, List.foldlM_append]
  rfl

/-- One append folds its records in, from the seq after the last. -/
theorem append_fold (h : j.append records = .ok j') :
    fold (j.openTable, j.position) (Journal.numbered (j.store.lastSeq + 1) records) =
      .ok (j'.openTable, j'.position) ∧
    j'.store.lastSeq = j.store.lastSeq + records.length := by
  obtain ⟨dispatches, -, h⟩ := bind_eq_ok.mp h
  obtain ⟨⟨last, store⟩, hwrite, h⟩ := bind_eq_ok.mp h
  have hlast : last = j.store.lastSeq + records.length ∧
      store.lastSeq = j.store.lastSeq + records.length := by
    rw [Journal.write] at hwrite
    cases hresult : (MemoryStore.append records).result j.store with
    | error e =>
      rw [hresult] at hwrite
      cases hwrite
    | ok last' =>
      rw [hresult] at hwrite
      cases hwrite
      obtain ⟨encoded, hencoded, hafter, hlast⟩ := MemoryStore.append_ok hresult
      refine ⟨hlast, ?_⟩
      rw [hafter, MemoryStore.lastSeq_foldl_push, (mapM_inv hencoded).length_eq]
  -- the loop over the committed records folds them in and writes nothing
  have hloop : ∀ (records : List Record) (seq : Int) (i i' : Journal L),
      (Journal.numbered seq records).foldlM Journal.noteOne i = .ok i' →
      fold (i.openTable, i.position) (Journal.numbered seq records) =
        .ok (i'.openTable, i'.position) ∧ i'.store = i.store := by
    intro records
    induction records with
    | nil =>
      intro seq i i' h
      cases h
      exact ⟨rfl, rfl⟩
    | cons record records ih =>
      intro seq i i' h
      rw [Journal.numbered, List.foldlM_cons] at h
      obtain ⟨next, hnext, h⟩ := bind_eq_ok.mp h
      obtain ⟨openTable, htable, hnext⟩ := bind_eq_ok.mp hnext
      obtain ⟨position, hposition, hnext⟩ := bind_eq_ok.mp hnext
      obtain ⟨wire, -, hnext⟩ := bind_eq_ok.mp hnext
      obtain ⟨-, -, hnext⟩ := bind_eq_ok.mp hnext
      cases hnext
      obtain ⟨hfold, hstore⟩ := ih (seq + 1) _ i' h
      exact ⟨fold_cons.mpr ⟨openTable, position, htable, hposition, hfold⟩, hstore⟩
  have hfirst : last - records.length + 1 = j.store.lastSeq + 1 := by omega
  obtain ⟨hfold, hstore⟩ := hloop records _ _ j' h
  rw [hfirst] at hfold
  exact ⟨hfold, by rw [hstore]; exact hlast.2⟩

/-- A run of appends folds all their records in. -/
theorem appends_fold : ∀ {batches : List (List Record)} {j j' : Journal L},
    j.appends batches = .ok j' →
    fold (j.openTable, j.position) (Journal.numbered (j.store.lastSeq + 1) batches.flatten) =
      .ok (j'.openTable, j'.position) ∧
    j'.store.lastSeq = j.store.lastSeq + batches.flatten.length
  | [], j, j', h => by
    cases h
    exact ⟨rfl, by simp⟩
  | records :: batches, j, j', h => by
    rw [Journal.appends, List.foldlM_cons] at h
    obtain ⟨next, hnext, h⟩ := bind_eq_ok.mp h
    obtain ⟨hfirst, hseq⟩ := append_fold hnext
    obtain ⟨hrest, hlast⟩ := appends_fold h
    rw [List.flatten_cons, fold_append, hfirst, List.length_append]
    have harith : j.store.lastSeq + 1 + records.length = next.store.lastSeq + 1 := by omega
    constructor
    · rw [harith]
      exact hrest
    · push_cast
      omega

/-- What a fold leaves is sound. -/
theorem fold_sound : ∀ {records : List Record} {last : Int} {t : OpenTable} {p : Position L},
    t.Sound L last → p.Sound → 0 ≤ last → (∀ r ∈ records, r.payload.IsJson) →
    fold (t, p) (Journal.numbered (last + 1) records) = .ok (t', p') →
    t'.Sound L (last + records.length) ∧ p'.Sound
  | [], last, t, p, ht, hp, _, _, h => by
    cases h
    exact ⟨by simpa using ht, hp⟩
  | record :: records, last, t, p, ht, hp, hlast, hjson, h => by
    obtain ⟨u, q, hu, hq, h⟩ := fold_cons.mp h
    have hbody := hjson record List.mem_cons_self
    obtain ⟨ht', hp'⟩ := fold_sound (OpenTable.note_sound ht hlast hbody hu)
      (Position.note_sound hp hbody hq) (by omega) (fun r hr => hjson r (List.mem_cons_of_mem _ hr)) h
    refine ⟨?_, hp'⟩
    rw [List.length_cons]
    have harith : last + 1 + (records.length : Int) = last + ((records.length + 1 : Nat) : Int) := by
      push_cast
      omega
    exact harith ▸ ht'

/-- Each plan comes after an outcome. -/
def PlansFollow (records : List Record) : Prop :=
  ∀ before record after, records = before ++ record :: after → OpenTable.isPlan record = true →
    ∃ r ∈ before, r.kind = name "outcome"

theorem PlansFollow.tail (h : PlansFollow (record :: records)) (hkind : record.kind ≠ name "outcome") :
    PlansFollow records := by
  intro before r after heq hplan
  obtain ⟨r', hr', hr'kind⟩ := h (record :: before) r after (by rw [heq]; rfl) hplan
  rcases List.mem_cons.mp hr' with rfl | hr'
  · exact absurd hr'kind hkind
  · exact ⟨r', hr', hr'kind⟩

/-- Tables that hold the same hold the same after the same records. -/
theorem fold_same : ∀ {records : List Record} {seq : Int} {t u : OpenTable} {p : Position L},
    t.Same u → (∀ r ∈ records, r.payload.IsJson) → (t.ended = u.ended ∨ PlansFollow records) →
    fold (t, p) (Journal.numbered seq records) = .ok (t', p') →
    ∃ u', fold (u, p) (Journal.numbered seq records) = .ok (u', p') ∧ t'.Same u'
  | [], seq, t, u, p, hsame, _, _, h => by
    cases h
    exact ⟨u, rfl, hsame⟩
  | record :: records, seq, t, u, p, hsame, hjson, hended, h => by
    obtain ⟨next, q, hnext, hq, h⟩ := fold_cons.mp h
    have hplan : OpenTable.isPlan record = true → t.ended = u.ended := by
      intro hplan
      rcases hended with hended | hfollow
      · exact hended
      · obtain ⟨r, hr, -⟩ := hfollow [] record records rfl hplan
        cases hr
    obtain ⟨next', hnext', hfollows, houtcome⟩ :=
      OpenTable.note_same hsame (hjson record List.mem_cons_self) hplan hnext
    have hended' : next.ended = next'.ended ∨ PlansFollow records := by
      by_cases hkind : record.kind = name "outcome"
      · exact Or.inl (houtcome hkind)
      · exact hended.imp hfollows.ended fun hfollow => hfollow.tail hkind
    obtain ⟨u', hu', hsame'⟩ := fold_same hfollows.same
      (fun r hr => hjson r (List.mem_cons_of_mem _ hr)) hended' h
    exact ⟨u', fold_cons.mpr ⟨next', q, hnext', hq, hu'⟩, hsame'⟩

/-- A start: the snapshot read back, and the records after it folded in. -/
def resume {Rows : Type} (validate : Value → Option Rows) (b : Beside L) (j : Journal L)
    (after : List Record) : Except Error (OpenTable × Position L) := do
  let bytes ← encodeSnapshot L b j.openTable j.position
  let restored ← decodeSnapshot L validate j.store.lastSeq bytes
  fold (restored.openTable, restored.position) (Journal.numbered (j.store.lastSeq + 1) after)

/-- **A start from a snapshot is where the writer was.** The snapshot after the first appends reads
back, and the records of the later ones folded into what it holds give what all the records folded
from the first give, unless an open attempt of the run its job dispatched last has another first
seq: that snapshot is refused. The payloads are JSON values, and a plan of the later appends comes
after an outcome there. -/
theorem resume_fold {Rows : Type} {validate : Value → Option Rows} {before after : List (List Record)}
    {b : Beside L} (hbefore : Journal.empty.appends before = .ok j) (hafter : j.appends after = .ok j')
    (hjson : ∀ r ∈ before.flatten ++ after.flatten, r.payload.IsJson)
    (hplans : PlansFollow after.flatten) (hb : b.Sound validate) :
    (j.openTable.Retains → ∃ opened position,
      resume validate b j after.flatten = .ok (opened, position) ∧
      fold (.empty, .empty) (Journal.numbered 1 (before.flatten ++ after.flatten)) =
        .ok (j'.openTable, j'.position) ∧
      opened.Same j'.openTable ∧ position = j'.position) ∧
    (¬j.openTable.Retains → ∃ e, resume validate b j after.flatten = .error e) := by
  obtain ⟨hfront, hlast⟩ := appends_fold hbefore
  obtain ⟨hsuffix, -⟩ := appends_fold hafter
  have hzero : (Journal.empty : Journal L).store.lastSeq = 0 := rfl
  rw [hzero, Int.zero_add] at hfront hlast
  have hfront : fold (.empty, .empty) (Journal.numbered 1 before.flatten) =
    .ok (j.openTable, j.position) := hfront
  have hempty : OpenTable.empty.Sound L 0 := OpenTable.sound_empty
  obtain ⟨hsound, hposition⟩ := fold_sound hempty Position.sound_empty le_rfl
    (fun r hr => hjson r (List.mem_append_left _ hr)) hfront
  rw [Int.zero_add, ← hlast] at hsound
  obtain ⟨bytes, hbytes, hreads, hrefuses⟩ := decodeSnapshot_ok hsound hposition hb
  rw [resume, hbytes, ok_bind]
  constructor
  · intro hretains
    obtain ⟨restored, hrestored, hsame, -, hpos⟩ := hreads hretains
    obtain ⟨opened, hopened, hopenedSame⟩ := fold_same hsame.symm
      (fun r hr => hjson r (List.mem_append_right _ hr)) (Or.inr hplans) hsuffix
    refine ⟨opened, j'.position, ?_, ?_, hopenedSame.symm, rfl⟩
    · rw [hrestored, ok_bind, hpos]
      exact hopened
    · have hseq : 1 + (before.flatten.length : Int) = j.store.lastSeq + 1 := by omega
      rw [fold_append, hfront, hseq]
      exact hsuffix
  · intro hretains
    obtain ⟨e, he⟩ := hrefuses hretains
    exact ⟨e, by rw [he]; rfl⟩

end Fold

/-! ## A record that a start does not resume from -/

section Examples

/-- The library on instants of one width, with no run tags and one text under the digest. -/
def plainLibrary (digest : String) : Library where
  Instant := List Char
  fromisoformat s := some (s.filterMap Code.char?)
  isoformat := ofChars
  naiveUtc := some
  after i i' := some (decide (i' < i))
  same i i' := i = i'
  runTag _ := none
  repr _ := []
  intOfText _ := none
  intField := wireInt?
  sha256 _ := name digest
  read_written cs := by
    congr 1
    induction cs with
    | nil => rfl
    | cons c cs ih => exact congrArg (c :: ·) ih
  intField_int _ := rfl
  scalar_isoformat := isScalarString_ofChars
  scalar_repr _ _ := rfl
  scalar_sha256 _ := isScalarString_ofChars _

/-- The digest over a table with no dispatch. -/
def emptyDigest : String := "53765e58fa3ec5acc288c06c3ed4053c5c3b767d8fbffac90fd27ae2ba851087"

def newYear : DateTime where
  year := 2024
  month := 1
  day := 1
  hour := 0
  minute := 0
  second := 0
  microsecond := 0

def attemptId : String := "00000000-0000-4000-8000-000000000001"

def recordOf (kind : String) (fields : List (String × Value)) : Record where
  at_utc := .naive newYear
  kind := name kind
  actor := none
  request_id := none
  payload := named fields

def outcomeRecord : Record :=
  recordOf "outcome" [("attempt", .str (name attemptId)), ("outcome", .str (name "natural")),
    ("at", .str (name "2024-01-01T00:00:00"))]

def planRecord : Record :=
  recordOf "follow_up" [("event", .str (name "plan")), ("attempt", .str (name attemptId)),
    ("job", .str (name "load")), ("run_number", .int 1), ("plan", .str (name "hold")),
    ("steps", .list [named [("step", .str (name "hold"))]])]

def intentRecord : Record :=
  recordOf "config" [("event", .str (name "intent")), ("since", .datetime newYear)]

/-- The rows of an oracle that has taken no input. -/
def noRows : Value :=
  named [("jobs", named []), ("globals_", named []), ("timers", .list []), ("timer_seq", .int 0),
    ("consumed", named []), ("enqueue_counter", .int 0), ("tombstones", named []),
    ("wake_owed", .bool false), ("ghosts", named []), ("period_id", .int 1), ("now", .none)]

variable {L : Library} {t : OpenTable} {p : Position L} {seq : Int}

def besideNothing (L : Library) : Beside L where
  oracle := noRows
  runs := named []
  evidence := named []
  config_rev := 1
  committed_index := 0
  applied_index := 0
  instant := none

def anyRows (_ : Value) : Option Unit := some ()

/-! ### The records folded -/

@[simp] theorem equal_name {a b : String} :
    equal (.str (name a)) (.str (name b)) = decide (a = b) := by
  simp [equal, Value.sorted, equalSorted]

@[simp] theorem equal_none_name {a : String} : equal .none (.str (name a)) = false := by
  simp [equal, Value.sorted, equalSorted, number?]

attribute [local simp] bind Except.bind pure Except.pure named dictGet items item Dict.getIn recordOf
  outcomeRecord planRecord intentRecord isEvent pyStr pyInt pyDict elements getOf orEmpty orNothing
  truthy oneOf checkRecord checkWhen checkNamed checkSteps checkStep KINDS OUTCOMES PLANS CONFIG_EVENTS

theorem note_outcomeRecord : t.note L seq outcomeRecord = .ok { t with
    attempts := t.attempts.erase (name attemptId)
    ended := some (name attemptId, some (name "2024-01-01T00:00:00")) } := by
  simp [OpenTable.note, OpenTable.noteOutcome, OpenTable.outcomeEnd]

/-- The table with the plan, at its seq. -/
def planned (t : OpenTable) (seq : Int) : OpenTable :=
  { t with
    plans := t.plans.set (name attemptId)
      { seq, attempt := name attemptId, job := name "load", run_number := 1, plan := name "hold"
        steps := [named [("step", .str (name "hold"))]], done := ∅
        ended := t.ended.bind fun e => if e.1 = name attemptId then e.2 else none } }

theorem planned_ended : ((planned t seq).plans.get? (name attemptId)).map OpenPlan.ended =
    some (t.ended.bind fun e => if e.1 = name attemptId then e.2 else none) := by
  rw [planned, Dict.get?_set_self, Option.map_some]

theorem note_planRecord : t.note L seq planRecord = .ok (planned t seq) := by
  simp [OpenTable.note, OpenTable.noteFollowUp, OpenTable.notePlan, planned]
  rfl

theorem note_intentRecord : t.note L seq intentRecord = .ok { t with
    update := some (withItem intentRecord.payload (name "seq") (.int seq)) } := by
  simp [OpenTable.note, OpenTable.noteConfig]

theorem position_note : p.note outcomeRecord = .ok p ∧ p.note planRecord = .ok p ∧
    p.note intentRecord = .ok p := by
  simp [Position.note, Position.stamped]

theorem wireRecord_none : wireRecord L outcomeRecord = .ok none ∧ wireRecord L planRecord = .ok none ∧
    wireRecord L intentRecord = .ok none := by
  simp [wireRecord]

/-! ### The records appended -/

/-- A record of JSON values and instants has a row. -/
theorem encode_recordOf {kind : String} {fields : List (String × Value)} (hkind : kind ≠ "")
    (hjson : (named fields).written.IsJson) (hversion : "artifact_format_version" ∉ fields.map Prod.fst) :
    ∃ row, encode (recordOf kind fields) = .ok row ∧ row.request_id = none := by
  have hwritten : (named fields).written.VersionOk := by
    rw [written_named]
    refine versionOk_named ?_
    rw [List.map_map]
    exact hversion
  obtain ⟨data, hdata, hdecode⟩ := decode_canonicalBytes hjson hwritten
  rw [canonicalBytes_written] at hdata
  have hcheck : checkArtifactVersion (named fields) = .ok () := by
    rw [named, checkArtifactVersion]
    have hnone : (fields.map fun f => (name f.1, f.2)).find? (fun e => e.1 = versionKey) = none := by
      rw [List.find?_eq_none]
      intro e he
      obtain ⟨f, hf, rfl⟩ := List.mem_map.mp he
      have hne : f.1 ≠ "artifact_format_version" := fun heq => hversion (heq ▸ List.mem_map_of_mem hf)
      have hkey : name f.1 ≠ versionKey := fun heq => hne (name_inj.mp heq)
      simpa using hkey
    rw [hnone]
  have hpayload : encodePayload (named fields) = .ok data := by
    have hread : decodePayload data = .ok (named fields).written.sorted := by
      rw [decodePayload, hdecode]
      rfl
    show (canon (checkArtifactVersion (named fields)) >>= fun _ => _) = _
    rw [hcheck]
    show (canon (canonicalBytes (named fields)) >>= fun data => decodePayload data >>= fun _ => .ok data) = _
    rw [hdata]
    show (decodePayload data >>= fun _ => Except.ok data) = _
    rw [hread]
    rfl
  refine ⟨{ at_utc := newYear.isoformat, kind := name kind, actor := none, request_id := none,
            payload := data }, ?_, rfl⟩
  have hname : name kind ≠ [] := fun heq => hkind (name_inj.mp heq)
  have htext : text (name kind) "kind".toList = .ok () := if_pos (isScalarString_ofChars _)
  have hkindOk : nonEmpty (name kind) = .ok () := if_neg hname
  simp only [encode, recordOf, htext, hkindOk, optionalText, stamp, naiveUtc, hpayload,
    bind, Except.bind, Except.map]
  rfl

/-- One record that the table and the position take and the wire does not is appended. -/
theorem append_one {j : Journal L} {record : Record} {row : Encoded} {t : OpenTable}
    {p : Position L} (hcheck : checkRecord L record = .ok ()) (hkind : record.kind ≠ name "dispatch")
    (hrow : encode record = .ok row) (hid : row.request_id = none)
    (ht : j.openTable.note L (j.store.lastSeq + 1) record = .ok t) (hp : j.position.note record = .ok p)
    (hwire : wireRecord L record = .ok none) :
    ∃ j', j.appends [[record]] = .ok j' ∧ j'.openTable = t ∧ j'.position = p ∧
      j'.store.lastSeq = j.store.lastSeq + 1 := by
  have hresult : (MemoryStore.append [record]).result j.store = .ok (j.store.push row).lastSeq := by
    have hmap : [record].mapM encode = .ok [row] := by
      rw [List.mapM_cons, hrow]
      rfl
    rw [MemoryStore.append, Effect.result_bind, Effect.result_ofExcept, hmap]
    show (MemoryStore.appendRows [row]).result j.store = _
    rw [MemoryStore.appendRows_result, MemoryStore.checkRequests, hid]
    rfl
  have hlast : (j.store.push row).lastSeq = j.store.lastSeq + 1 := by
    simp only [MemoryStore.lastSeq, MemoryStore.push]
    omega
  have hwrite : ∃ store, j.write [record] = .ok (j.store.lastSeq + 1, store) ∧
      store.lastSeq = j.store.lastSeq + 1 := by
    obtain ⟨encoded, hencoded, hafter, -⟩ := MemoryStore.append_ok hresult
    refine ⟨(MemoryStore.append [record]).after j.store, ?_, ?_⟩
    · rw [Journal.write, hresult, hlast]
      rfl
    · rw [hafter, MemoryStore.lastSeq_foldl_push, ← (mapM_inv hencoded).length_eq]
      rfl
  obtain ⟨store, hwrite, hstore⟩ := hwrite
  have hone : Journal.checkOne (L := L) j.openTable.dispatches (j.store.lastSeq + 1, record) =
      .ok j.openTable.dispatches := by
    simp only [Journal.checkOne, hcheck, if_neg hkind, bind, Except.bind]
    rfl
  have hchecks : (Journal.numbered (j.store.lastSeq + 1) [record]).foldlM
      (Journal.checkOne (L := L)) j.openTable.dispatches = .ok j.openTable.dispatches := by
    rw [Journal.numbered, List.foldlM_cons, hone]
    rfl
  have hfirst : j.store.lastSeq + 1 - (([record].length : Nat) : Int) + 1 = j.store.lastSeq + 1 := by
    simp
  have hnote : Journal.noteOne { j with store } (j.store.lastSeq + 1, record) =
      .ok { j with store, openTable := t, position := p } := by
    simp only [Journal.noteOne, ht, hp, hwire, bind, Except.bind]
    rfl
  refine ⟨{ j with store, openTable := t, position := p }, ?_, rfl, rfl, hstore⟩
  rw [Journal.appends, List.foldlM_cons, Journal.append, hchecks, ok_bind, hwrite, ok_bind]
  dsimp only
  rw [hfirst, Journal.numbered, List.foldlM_cons, hnote]
  rfl

theorem checkRecord_ok : checkRecord L outcomeRecord = .ok () ∧ checkRecord L planRecord = .ok () ∧
    checkRecord L intentRecord = .ok () := by
  simp

/-- The intent with its seq. -/
def openedIntent : List (String × Value) :=
  [("event", .str (name "intent")), ("since", .datetime newYear), ("seq", .int 1)]

theorem withItem_intent : withItem intentRecord.payload (name "seq") (.int 1) = named openedIntent := by
  simp [withItem, Dict.setIn, openedIntent]

theorem isJson_outcome : outcomeRecord.payload.IsJson := by
  refine isJson_named (by simp) ?_
  simp only [List.forall_mem_cons]
  exact ⟨isScalarString_ofChars _, isScalarString_ofChars _, isScalarString_ofChars _,
    fun _ hf => nomatch hf⟩

theorem isJson_plan : planRecord.payload.IsJson := by
  have hstep : (named [("step", .str (name "hold"))]).IsJson := by
    refine isJson_named (by simp) ?_
    simp only [List.forall_mem_cons]
    exact ⟨isScalarString_ofChars _, fun _ hf => nomatch hf⟩
  refine isJson_named (by simp) ?_
  simp only [List.forall_mem_cons]
  exact ⟨isScalarString_ofChars _, isScalarString_ofChars _, isScalarString_ofChars _, trivial,
    isScalarString_ofChars _, ⟨hstep, trivial⟩, fun _ hf => nomatch hf⟩

theorem isJson_intent : intentRecord.payload.written.IsJson ∧ (named openedIntent).written.IsJson := by
  have hinstant : isScalarString (ofChars newYear.isoformat) = true := isScalarString_ofChars _
  constructor
  · show (named _).written.IsJson
    rw [written_named]
    refine isJson_named (by simp) ?_
    simp only [List.map_cons, List.map_nil, List.forall_mem_cons]
    exact ⟨isScalarString_ofChars _, hinstant, fun _ hf => nomatch hf⟩
  · rw [written_named]
    refine isJson_named (by simp [openedIntent]) ?_
    simp only [openedIntent, List.map_cons, List.map_nil, List.forall_mem_cons]
    exact ⟨isScalarString_ofChars _, hinstant, trivial, fun _ hf => nomatch hf⟩

theorem besideNothing_sound : (besideNothing L).Sound anyRows where
  oracle := by
    show (named _).written.IsJson
    rw [written_named]
    refine isJson_named (by simp) ?_
    have hnamed : (named []).written.IsJson := ⟨List.nodup_nil, trivial⟩
    simp only [List.map_cons, List.map_nil, List.forall_mem_cons]
    exact ⟨hnamed, hnamed, trivial, trivial, hnamed, trivial, hnamed, trivial, hnamed, trivial, trivial,
      fun _ hf => nomatch hf⟩
  rows := ⟨(), rfl⟩
  runs := ⟨List.nodup_nil, trivial⟩
  runs_mapping := ⟨[], rfl⟩
  revs := fun _ he => nomatch he
  evidence := ⟨List.nodup_nil, trivial⟩
  evidence_mapping := ⟨[], rfl⟩
  applied := le_refl _

/-- The outcome appended, and what a start has of it. -/
theorem outcome_appended (L : Library) : ∃ j : Journal L,
    Journal.empty.appends [[outcomeRecord]] = .ok j ∧ j.store.lastSeq = 1 ∧
    j.openTable.ended = some (name attemptId, some (name "2024-01-01T00:00:00")) ∧
    ∃ bytes restored, encodeSnapshot L (besideNothing L) j.openTable j.position = .ok bytes ∧
      decodeSnapshot L anyRows j.store.lastSeq bytes = .ok restored ∧
      restored.openTable.ended = none := by
  have hwritten : outcomeRecord.payload.written.IsJson := by
    rw [Value.written_of_isJson _ isJson_outcome]
    exact isJson_outcome
  obtain ⟨row, hrow, hid⟩ : ∃ row, encode outcomeRecord = .ok row ∧ row.request_id = none :=
    encode_recordOf (by simp) hwritten (by simp)
  have hnote : OpenTable.empty.note L 1 outcomeRecord = _ := note_outcomeRecord
  obtain ⟨j, hj, htable, hposition, hlast⟩ := append_one (j := Journal.empty) checkRecord_ok.1
    (by simp) hrow hid hnote position_note.1 wireRecord_none.1
  have hempty : OpenTable.empty.Sound L 0 := OpenTable.sound_empty
  have hsound := OpenTable.note_sound hempty le_rfl isJson_outcome hnote
  rw [← htable] at hsound
  have hpos : j.position.Sound := hposition ▸ Position.sound_empty
  obtain ⟨bytes, hbytes, hreads, -⟩ := decodeSnapshot_ok hsound hpos besideNothing_sound
  have hretains : j.openTable.Retains := by
    intro id a hget
    rw [htable, Dict.get?_erase] at hget
    split at hget
    · cases hget
    · cases hget
  obtain ⟨restored, hrestored, -, hended, -⟩ := hreads hretains
  exact ⟨j, hj, hlast, by rw [htable], bytes, restored, hbytes, hlast ▸ hrestored, hended⟩

/-- The intent appended, and what a start has of it. -/
theorem intent_appended (L : Library) : ∃ (j : Journal L) (opened : OpenTable) (position : Position L),
    Journal.empty.appends [[intentRecord]] = .ok j ∧
    resume anyRows (besideNothing L) j [] = .ok (opened, position) ∧
    opened.update = some (named openedIntent).written.sorted ∧
    j.openTable.update = some (named openedIntent) := by
  obtain ⟨row, hrow, hid⟩ : ∃ row, encode intentRecord = .ok row ∧ row.request_id = none :=
    encode_recordOf (by simp) isJson_intent.1 (by simp)
  have hnote : OpenTable.empty.note L 1 intentRecord = _ := note_intentRecord
  obtain ⟨j, hj, htable, hposition, hlast⟩ := append_one (j := Journal.empty) checkRecord_ok.2.2
    (by simp) hrow hid hnote position_note.2.2 wireRecord_none.2.2
  rw [withItem_intent] at htable
  have hpos : j.position.Sound := hposition ▸ Position.sound_empty
  -- beside its update the table is the empty one
  have hempty : OpenTable.empty.Sound L j.store.lastSeq := OpenTable.sound_empty
  obtain ⟨hash, hscalar, hhash, hopened⟩ := hempty.toPayload_ok
  have hpayload := hempty.isJson_payload hscalar
  obtain ⟨u, hu, hsame, -⟩ := (OpenTable.fromPayload_ok hempty hpayload hhash).1
    fun _ _ hget => nomatch hget
  have htoPayload : j.openTable.toPayload L = .ok (OpenTable.empty.payload hash) := by
    rw [htable]
    exact hopened
  have hupdate : j.openTable.update = some (named openedIntent) := by rw [htable]
  have hjsonUpdate : (j.openTable.update.getD .none).written.IsJson := by
    rw [hupdate]
    exact isJson_intent.2
  obtain ⟨bytes, hbytes, hjson, hdecode⟩ :=
    encodeSnapshot_ok besideNothing_sound hpos htoPayload hpayload hjsonUpdate
  obtain ⟨restored, hread, hopen, -⟩ := readSnapshot_ok hpos besideNothing_sound hjson hu
    (OpenTable.checkBeyond_ok hempty hsame.dispatches)
  have hdecoded : decodeSnapshot L anyRows j.store.lastSeq bytes = .ok restored := by
    rw [decodeSnapshot, hdecode, canon_ok_bind, hread]
  refine ⟨j, restored.openTable, restored.position, hj, ?_, ?_, hupdate⟩
  · rw [resume, hbytes, ok_bind, hdecoded, ok_bind]
    rfl
  · rw [hopen, hupdate]
    rfl

/-- A plan appended after the outcome it belongs to has lost that outcome's end, and an instant comes
back as its text. -/
theorem resume_loses :
    (∃ (j j' : Journal (plainLibrary emptyDigest)) (opened : OpenTable)
      (position : Position (plainLibrary emptyDigest)),
      Journal.empty.appends [[outcomeRecord]] = .ok j ∧ j.appends [[planRecord]] = .ok j' ∧
      resume anyRows (besideNothing _) j [planRecord] = .ok (opened, position) ∧
      (opened.plans.get? (name attemptId)).map OpenPlan.ended = some none ∧
      (j'.openTable.plans.get? (name attemptId)).map OpenPlan.ended =
        some (some (name "2024-01-01T00:00:00"))) ∧
    (∃ (j : Journal (plainLibrary emptyDigest)) (opened : OpenTable)
      (position : Position (plainLibrary emptyDigest)),
      Journal.empty.appends [[intentRecord]] = .ok j ∧
      resume anyRows (besideNothing _) j [] = .ok (opened, position) ∧
      opened.update.map (dictGet · (name "since")) = some (.str (ofChars newYear.isoformat)) ∧
      j.openTable.update.map (dictGet · (name "since")) = some (.datetime newYear)) := by
  constructor
  · obtain ⟨j, hj, hlast, hended, bytes, restored, hbytes, hrestored, hnone⟩ :=
      outcome_appended (plainLibrary emptyDigest)
    have hwritten : planRecord.payload.written.IsJson := by
      rw [Value.written_of_isJson _ isJson_plan]
      exact isJson_plan
    obtain ⟨row, hrow, hid⟩ : ∃ row, encode planRecord = .ok row ∧ row.request_id = none :=
      encode_recordOf (by simp) hwritten (by simp)
    obtain ⟨j', hj', htable, -, -⟩ := append_one checkRecord_ok.2.1 (by simp) hrow hid note_planRecord
      position_note.2.1 wireRecord_none.2.1
    refine ⟨j, j', planned restored.openTable (j.store.lastSeq + 1), restored.position, hj, hj', ?_, ?_, ?_⟩
    · rw [resume, hbytes, ok_bind, hrestored, ok_bind, fold_cons]
      exact ⟨_, _, note_planRecord, position_note.2.1, rfl⟩
    · rw [planned_ended, hnone]
      rfl
    · rw [htable, planned_ended, hended, Option.bind_some, if_pos rfl]
  · obtain ⟨j, opened, position, hj, hresume, hopened, hupdate⟩ :=
      intent_appended (plainLibrary emptyDigest)
    refine ⟨j, opened, position, hj, hresume, ?_, ?_⟩
    · rw [hopened, Option.map_some]
      have hjson := isJson_intent.2
      rw [written_named] at hjson ⊢
      exact congrArg some (get_of_item (item_named hjson "since" rfl))
    · rw [hupdate, Option.map_some]
      simp [openedIntent]

/-- The fold over a plan, and after it over an outcome with its plan. -/
theorem resume_fold_plan : ∃ j j' : Journal (plainLibrary emptyDigest),
    Journal.empty.appends [[planRecord]] = .ok j ∧
    j.appends [[outcomeRecord], [planRecord]] = .ok j' ∧
    (j.openTable.Retains → ∃ opened position,
      resume anyRows (besideNothing _) j [outcomeRecord, planRecord] = .ok (opened, position) ∧
      fold (.empty, .empty) (Journal.numbered 1 [planRecord, outcomeRecord, planRecord]) =
        .ok (j'.openTable, j'.position) ∧
      opened.Same j'.openTable ∧ position = j'.position) ∧
    (¬j.openTable.Retains →
      ∃ e, resume anyRows (besideNothing _) j [outcomeRecord, planRecord] = .error e) := by
  have hplanWritten : planRecord.payload.written.IsJson := by
    rw [Value.written_of_isJson _ isJson_plan]
    exact isJson_plan
  have houtcomeWritten : outcomeRecord.payload.written.IsJson := by
    rw [Value.written_of_isJson _ isJson_outcome]
    exact isJson_outcome
  obtain ⟨plan, hplan, hplanId⟩ : ∃ row, encode planRecord = .ok row ∧ row.request_id = none :=
    encode_recordOf (by simp) hplanWritten (by simp)
  obtain ⟨outcome, houtcome, houtcomeId⟩ : ∃ row, encode outcomeRecord = .ok row ∧
    row.request_id = none := encode_recordOf (by simp) houtcomeWritten (by simp)
  obtain ⟨j, hj, -⟩ := append_one (L := plainLibrary emptyDigest) (j := Journal.empty)
    checkRecord_ok.2.1 (by simp) hplan hplanId note_planRecord position_note.2.1 wireRecord_none.2.1
  obtain ⟨next, hnext, -⟩ := append_one (j := j) checkRecord_ok.1 (by simp) houtcome houtcomeId
    note_outcomeRecord position_note.1 wireRecord_none.1
  obtain ⟨j', hj', -⟩ := append_one (j := next) checkRecord_ok.2.1 (by simp) hplan hplanId
    note_planRecord position_note.2.1 wireRecord_none.2.1
  have hafter : j.appends ([[outcomeRecord]] ++ [[planRecord]]) = .ok j' := by
    rw [Journal.appends, List.foldlM_append]
    show j.appends [[outcomeRecord]] >>= _ = _
    rw [hnext, ok_bind]
    exact hj'
  have hjson : ∀ r ∈ [planRecord, outcomeRecord, planRecord], r.payload.IsJson := by
    simp only [List.forall_mem_cons]
    exact ⟨isJson_plan, isJson_outcome, isJson_plan, fun _ hr => nomatch hr⟩
  have hplans : PlansFollow [outcomeRecord, planRecord] := by
    intro before record after heq hisPlan
    cases before with
    | nil =>
      cases heq
      simp [OpenTable.isPlan] at hisPlan
    | cons r before =>
      obtain ⟨rfl, -⟩ := List.cons.inj heq
      exact ⟨outcomeRecord, List.mem_cons_self, rfl⟩
  exact ⟨j, j', hj, hafter, resume_fold hj hafter hjson hplans besideNothing_sound⟩

end Examples

end Dsl41.Runner
