import Dsl41.Watch.Follows

/-!
# Crashes and resumes

A watch that crashes and resumes is the one that nothing interrupts, over the observations whose
lines are whole.
-/

namespace Dsl41.Watch

open Infra Infra.Json Infra.Effect Canon Runner

variable {adapter : FileWatcherAdapter} {spec : FwSpec} {run_id : Option Str} {start_at : Moment}
  {recorded : List (Moment × Observation)} {lines : List Bytes} {file : Option Bytes} {stage : Stage} {s : System}

/-! ## What is observed fits -/

theorem observe_fits (world : World) : ∀ progress, Fits progress (observe spec world progress)
  | .exact .. => trivial
  | .sampled _ => by
    intro o ho
    obtain ⟨path, -, ho⟩ := List.mem_filterMap.mp ho
    split at ho
    · cases ho
    · next hscalar =>
      split at ho
      · cases ho
      · next stat hstat =>
        split at ho
        · cases ho
          refine ⟨?_, by simpa using hscalar, Int.natCast_nonneg _, Int.natCast_nonneg _, Int.natCast_nonneg _⟩
          rintro rfl
          rw [world.no_empty] at hstat
          cases hstat
        · cases ho

/-- What is written of a mapping holds strings of scalar values only. -/
theorem scalar_of_write {path key text : Str} {cs : List Char} {es : List (Str × Value)}
    (h : write path (.mapping es) = .ok cs) (hmem : (key, .str text) ∈ es) : isScalarString text = true := by
  rw [write, mapM_writeObject] at h
  obtain ⟨members, hmembers, -⟩ := Infra.bind_eq_ok.mp h
  obtain ⟨member, hmember⟩ := Infra.ok_of_mapM hmembers (mem_sortKeys.mpr hmem)
  obtain ⟨name, -, hvalue⟩ := Infra.bind_eq_ok.mp hmember
  obtain ⟨value, hvalue, -⟩ := Infra.bind_eq_ok.mp hvalue
  rw [write, encodeString] at hvalue
  split at hvalue
  · next hscalar => exact hscalar
  · cases hvalue

/-- A start line that can be written names a run of scalar values. -/
theorem scalar_of_line {data : Bytes} (h : lineOf (start_record run_id start_at) = .ok data) : ScalarId run_id := by
  intro s hs
  obtain rfl : run_id = some s := hs
  rw [lineOf] at h
  split at h
  · next bytes hbytes =>
    obtain ⟨text, hwrite, -⟩ := Infra.map_eq_ok.mp hbytes
    have hmem : (name "run_id", Value.str s) ∈ [(name "at", Value.datetime start_at.1), (name "kind", .str (name "start")),
        (name "run_id", .str s)] := by simp
    exact scalar_of_write hwrite (List.mem_cons_of_mem _ hmem)
  · cases h

/-! ## Polls recorded -/

/-- When the next poll is. -/
def nextAt (adapter : FileWatcherAdapter) (spec : FwSpec) (start_at : Moment) (recorded : List (Moment × Observation)) :
    DateTime :=
  match recorded.getLast? with
  | none => start_at
  | some (poll_at, _) => plusSeconds poll_at (interval adapter spec)

/-- The stage that a fold of so many polls resumes to. -/
def Stage.From (adapter : FileWatcherAdapter) (spec : FwSpec) (run_id : Option Str) (next_at : DateTime) (n : Nat)
    (acc : Fold) : Stage → Prop
  | .polling w => w.run_id = run_id ∧ w.next_at = next_at ∧ Follows adapter spec n acc w.progress
  | .returned => ∀ run_id start_at last_at, resume adapter spec (acc.log run_id start_at last_at (n + 1)) = .returned

/-- Lines of a dispatch and its polls, with the watch they leave. -/
structure Logged (adapter : FileWatcherAdapter) (spec : FwSpec) (run_id : Option Str) (start_at : Moment)
    (recorded : List (Moment × Observation)) (lines : List Bytes) (stage : Stage) : Prop where
  scalar : ScalarId run_id
  folds : ∃ records acc, List.Forall₂ Whole (start_record run_id start_at :: records) lines ∧
    records.length = recorded.length ∧ fold_records run_id 2 {} (records.map readBack) = .ok acc ∧
    acc.last.mapM watch_at = .ok (recorded.getLast?.map fun p => p.1.1) ∧
    stage.From adapter spec run_id (nextAt adapter spec start_at recorded) recorded.length acc
  feeds : uninterrupted adapter spec run_id start_at recorded = .ok stage
  earlier : ∀ n < recorded.length, ∃ w, uninterrupted adapter spec run_id start_at (recorded.take n) = .ok (.polling w)

theorem fold_records_append {position : Nat} {acc : Fold} {records : List Value} {record : Value} :
    fold_records run_id position acc (records ++ [record]) = (do
      let acc ← fold_records run_id position acc records
      fold_record run_id (position + records.length) acc record) := by
  induction records generalizing position acc with
  | nil =>
    show (fold_record run_id position acc record >>= fun acc => Except.ok acc) = fold_record run_id position acc record
    cases fold_record run_id position acc record with
    | error e => rfl
    | ok acc => rfl
  | cons first records ih =>
    rw [List.cons_append, fold_records, fold_records, List.length_cons]
    have hposition : position + (records.length + 1) = position + 1 + records.length := by omega
    cases fold_record run_id position acc first with
    | error e => rfl
    | ok acc =>
      rw [Infra.ok_bind, Infra.ok_bind, ih, hposition]

/-- The log of the lines, and the watch that resumes from it. -/
theorem Logged.read (h : Logged adapter spec run_id start_at recorded lines stage) (hfile : Holds lines file) :
    ∃ log, read_watch_log file = .ok (some log) ∧ log.run_id = run_id ∧ log.start_at = start_at ∧
      log.watch_seq = recorded.length + 1 ∧ resume adapter spec log = stage := by
  obtain ⟨records, acc, hwhole, hlength, hfold, hlast, hfrom⟩ := h.folds
  have hjson := isJson_start start_at h.scalar
  have hkind : dictGet (readBack (start_record run_id start_at)) (name "kind") = .str (name "start") :=
    get_versioned hjson (by decide : "kind" ≠ _) rfl
  have hrun : startRunId (readBack (start_record run_id start_at)) = .ok run_id := by
    rw [startRunId, show dictGet (readBack (start_record run_id start_at)) (name "run_id") = readBack (optional run_id) from
      get_versioned hjson (by decide : "run_id" ≠ _) rfl, readBack_optional]
    cases run_id with
    | none => rfl
    | some s => rfl
  have hinstant : watch_at (readBack (start_record run_id start_at)) = .ok start_at.1 := watch_at_versioned hjson rfl
  refine ⟨acc.log run_id start_at (recorded.getLast?.map fun p => p.1.1) (records.length + 1), ?_, rfl, rfl, by
    rw [← hlength]; rfl, ?_⟩
  · rw [hfile.read hwhole, logOf, List.map_cons]
    have hlog : foldLog (readBack (start_record run_id start_at)) (records.map readBack) =
        .ok (acc.log run_id start_at (recorded.getLast?.map fun p => p.1.1) (records.length + 1)) := by
      rw [foldLog, hkind, equal_names]
      simp only [hrun, hfold, hinstant, hlast, Infra.ok_bind, List.length_map]
      rfl
    show (foldLog (readBack (start_record run_id start_at)) (records.map readBack)).map some = _
    rw [hlog]
    rfl
  · rw [hlength]
    cases stage with
    | returned => exact hfrom _ _ _
    | polling w =>
      obtain ⟨hid, hnext, hfollows⟩ := hfrom
      rw [hfollows.resume]
      have hat : (acc.log run_id start_at (recorded.getLast?.map fun p => p.1.1) (recorded.length + 1)).next_poll_at
          (interval adapter spec) = w.next_at := by
        rw [hnext, nextAt, WatchLog.next_poll_at, Fold.log]
        cases recorded.getLast? with
        | none => rfl
        | some p => rfl
      rw [hat, ← hid]

/-- A poll's whole line is one more record. -/
theorem Logged.poll {w : Watching} {poll_at : Moment} {observation : Observation} {record : Value} {progress : Progress}
    {complete : Bool} (h : Logged adapter spec run_id start_at recorded lines (.polling w))
    (hfits : Fits w.progress observation)
    (hadvance : advance adapter spec w.run_id poll_at w.progress observation = .ok (record, progress, complete)) :
    ∃ line, Whole record line ∧ Logged adapter spec run_id start_at (recorded ++ [(poll_at, observation)])
      (lines ++ [line]) (if complete then .returned
        else .polling { w with progress, next_at := plusSeconds poll_at (interval adapter spec) }) := by
  obtain ⟨records, acc, hwhole, hlength, hfold, hlast, hid, hnext, hfollows⟩ := h.folds
  rw [hid] at hadvance
  obtain ⟨⟨line, hline⟩, hinstant, acc', hrecord, hlast', hstage⟩ := hfollows.step h.scalar hfits hadvance
  refine ⟨line, hline, h.scalar, ⟨records ++ [record], acc', ?_, ?_, ?_, ?_, ?_⟩, ?_, fun n hn => ?_⟩
  · rw [← List.cons_append]
    exact List.rel_append hwhole (.cons hline .nil)
  · rw [List.length_append, List.length_append, hlength]
    rfl
  · rw [List.map_append, List.map_singleton, fold_records_append, hfold, Infra.ok_bind, List.length_map, hlength,
      Nat.add_comm 2]
    exact hrecord
  · rw [hlast', List.getLast?_concat]
    show (watch_at (readBack record) >>= fun d => Except.ok (some d)) = .ok (some poll_at.1)
    rw [hinstant]
    rfl
  · rw [List.length_append, List.length_singleton]
    cases complete with
    | true => exact hstage
    | false =>
      refine ⟨hid, ?_, hstage⟩
      rw [nextAt, List.getLast?_concat]
  · rw [uninterrupted, List.foldlM_append]
    have hfeeds := h.feeds
    rw [uninterrupted] at hfeeds
    rw [hfeeds, Infra.ok_bind]
    show (Stage.feed adapter spec (.polling w) (poll_at, observation) >>= fun stage => Except.ok stage) = _
    rw [Stage.feed, hid, hadvance]
    cases complete with
    | true => rfl
    | false => rfl
  · rw [List.length_append, List.length_singleton] at hn
    rw [List.take_append_of_le_length (by omega)]
    by_cases heq : n = recorded.length
    · rw [heq, List.take_length]
      exact ⟨w, h.feeds⟩
    · exact h.earlier n (by omega)

/-! ## Appends -/

variable (file) in
theorem append_raised {record : Value} {error : EngineError} (cut : Option Nat) (h : lineOf record = .error error) :
    ((append_watch_line cut record).result file).toOption = none ∧ (append_watch_line cut record).after file = file ∧
      landed cut record = false := by
  simp only [append_watch_line, raising, result_bind, after_bind, result_ofExcept, after_ofExcept, h, Except.mapError,
    landed]
  exact ⟨rfl, trivial, trivial⟩

/-- An append to a file of whole lines: the lines it holds afterwards. -/
theorem append_spec {record : Value} {line : Bytes} (cut : Option Nat) (h : Whole record line)
    (hfile : file.getD [] = unlines newline lines) :
    Holds (if landed cut record then lines ++ [line] else lines) ((append_watch_line cut record).after file) ∧
      (((append_watch_line cut record).result file).toOption.isSome →
        landed cut record = true ∧
          (append_watch_line cut record).after file = some (unlines newline (lines ++ [line]))) := by
  cases cut with
  | none =>
    have hlanded : landed none record = true := by
      rw [landed, h.line_eq]
      rfl
    have hafter : (append_watch_line none record).after file = some (unlines newline (lines ++ [line])) := by
      simp only [append_watch_line, raising, after_bind, result_ofExcept, after_ofExcept, h.line_eq,
        Except.mapError, after_modify, hfile, unlines_concat]
    rw [hlanded, hafter, if_pos rfl]
    exact ⟨List.append_nil (unlines newline (lines ++ [line])) ▸ .ended [] torn_nil, fun _ => ⟨rfl, rfl⟩⟩
  | some k =>
    have hlanded : landed (some k) record = decide (line.length ≤ k) := by
      rw [landed, h.line_eq]
      simp
    have hafter : (append_watch_line (some k) record).after file =
        some (unlines newline lines ++ (line ++ [newline]).take k) := by
      simp only [append_watch_line, raising, after_bind, result_ofExcept, after_ofExcept, h.line_eq,
        Except.mapError, after_modify, result_modify, after_throw, hfile]
    have hresult : ((append_watch_line (some k) record).result file).toOption = none := by
      simp only [append_watch_line, raising, result_bind, result_ofExcept, after_ofExcept, h.line_eq,
        Except.mapError, result_modify, result_throw]
      rfl
    rw [hlanded, hafter, hresult]
    simp only [decide_eq_true_eq]
    exact ⟨h.append k, fun hsome => nomatch hsome⟩

/-! ## Computations -/

variable (adapter spec run_id) in
theorem launch_none (now : Moment) (cut : Option Nat) (h : read_watch_log file = .ok none) :
    (launch adapter spec run_id now cut).after file =
        (append_watch_line cut (start_record run_id now)).after (repair_tail file) ∧
      (launch adapter spec run_id now cut).result file =
        ((append_watch_line cut (start_record run_id now)).result (repair_tail file)).map
          fun _ => .polling { run_id, progress := fresh spec, next_at := now } := by
  simp only [launch, raising, result_bind, after_bind, result_get, after_get, result_ofExcept, after_ofExcept, h,
    Except.mapError, result_modify, after_modify]
  cases (append_watch_line cut (start_record run_id now)).result (repair_tail file) with
  | error e => exact ⟨rfl, rfl⟩
  | ok a => exact ⟨rfl, rfl⟩

variable (adapter spec run_id) in
/-- A launch on the log of another run is refused. -/
theorem launch_stranger (now : Moment) (cut : Option Nat) {log : WatchLog} (h : read_watch_log file = .ok (some log))
    (hrun : run_id ≠ none ∧ log.run_id ≠ run_id) : (launch adapter spec run_id now cut).after file = file ∧
      ((launch adapter spec run_id now cut).result file).toOption = none := by
  simp only [launch, raising, result_bind, after_bind, result_get, after_get, result_ofExcept, after_ofExcept, h,
    Except.mapError]
  rw [if_pos hrun]
  exact ⟨rfl, rfl⟩

variable (adapter spec run_id) in
theorem launch_known (now : Moment) (cut : Option Nat) {log : WatchLog} (h : read_watch_log file = .ok (some log))
    (hrun : ¬(run_id ≠ none ∧ log.run_id ≠ run_id)) :
    (launch adapter spec run_id now cut).after file = repair_tail file ∧
      (launch adapter spec run_id now cut).result file = .ok (resume adapter spec log) := by
  simp only [launch, raising, result_bind, after_bind, result_get, after_get, result_ofExcept, after_ofExcept, h,
    Except.mapError]
  rw [if_neg hrun]
  exact ⟨rfl, rfl⟩

variable (file) in
theorem poll_error {w : Watching} {poll_at : Moment} {world : World} (cut : Option Nat) {error : EngineError}
    (h : advance adapter spec w.run_id poll_at w.progress (observe spec world w.progress) = .error error) :
    (poll adapter spec w poll_at world cut).after file = file ∧
      ((poll adapter spec w poll_at world cut).result file).toOption = none := by
  simp only [poll, raising, result_bind, after_bind, result_ofExcept, after_ofExcept, h, Except.mapError]
  exact ⟨trivial, rfl⟩

variable (file) in
theorem poll_ok {w : Watching} {poll_at : Moment} {world : World} (cut : Option Nat) {record : Value}
    {progress : Progress} {complete : Bool}
    (h : advance adapter spec w.run_id poll_at w.progress (observe spec world w.progress) =
      .ok (record, progress, complete)) :
    (poll adapter spec w poll_at world cut).after file = (append_watch_line cut record).after file ∧
      (poll adapter spec w poll_at world cut).result file = ((append_watch_line cut record).result file).map
        fun _ => if complete then .returned
          else .polling { w with progress, next_at := plusSeconds poll_at (interval adapter spec) } := by
  simp only [poll, raising, result_bind, after_bind, result_ofExcept, after_ofExcept, h, Except.mapError]
  cases (append_watch_line cut record).result file with
  | error e => exact ⟨rfl, rfl⟩
  | ok a =>
    cases complete with
    | true => exact ⟨rfl, rfl⟩
    | false => exact ⟨rfl, rfl⟩

/-! ## Steps -/

/-- A log's file and its adapter are as the recorded observations leave them. -/
inductive Sound (adapter : FileWatcherAdapter) (spec : FwSpec) (s : System) : Prop
  | idle (hstarted : s.started = none) (hrecorded : s.recorded = []) (hwatch : s.watch = none) (hfile : Holds [] s.file)
  | begun (run_id : Option Str) (start_at : Moment) (lines : List Bytes) (stage : Stage)
      (hstarted : s.started = some (run_id, start_at))
      (hlogged : Logged adapter spec run_id start_at s.recorded lines stage) (hfile : Holds lines s.file)
      (hwatch : s.watch = none ∨ s.watch = some stage ∧ s.file = some (unlines newline lines))

variable (adapter spec) in
theorem sound_init : Sound adapter spec {} := .idle rfl rfl rfl (.missing rfl)

variable (adapter spec) in
/-- A dispatch is one line, with a fresh watch. -/
theorem logged_start {line : Bytes} (hid : ScalarId run_id) (h : Whole (start_record run_id start_at) line) :
    Logged adapter spec run_id start_at [] [line]
      (.polling { run_id, progress := fresh spec, next_at := start_at }) where
  scalar := hid
  folds := ⟨[], {}, .cons h .nil, rfl, rfl, rfl, rfl, rfl, follows_fresh⟩
  feeds := rfl
  earlier n hn := absurd hn (Nat.not_lt_zero n)

theorem Holds.some_of_ne {raw : Option Bytes} (h : Holds lines raw) (hne : lines ≠ []) : ∃ data, raw = some data := by
  cases h with
  | missing h => exact absurd h hne
  | ended tail h => exact ⟨_, rfl⟩
  | unended ls last h => exact ⟨_, rfl⟩

theorem Logged.whole (h : Logged adapter spec run_id start_at recorded lines stage) :
    ∃ records, List.Forall₂ Whole records lines ∧ lines ≠ [] := by
  obtain ⟨records, acc, hwhole, -⟩ := h.folds
  refine ⟨_, hwhole, ?_⟩
  cases hwhole with
  | cons => exact List.cons_ne_nil _ _

theorem toOption_map {ε α β : Type} {x : Except ε α} {f : α → β} : (x.map f).toOption = x.toOption.map f := by
  cases x with
  | error e => rfl
  | ok a => rfl

/-- A launch without a log dispatches the watch. -/
theorem Sound.dispatch (run_id : Option Str) (now : Moment) (cut : Option Nat) (hstarted : s.started = none)
    (hrecorded : s.recorded = []) (hwatch : s.watch = none) (hfile : Holds [] s.file) :
    Sound adapter spec (s.step adapter spec (.launch run_id now cut)) := by
  obtain ⟨hafter, hresult⟩ := launch_none adapter spec run_id now cut (hfile.read .nil)
  have hrepaired : Holds [] (repair_tail s.file) ∧ (repair_tail s.file).getD [] = unlines newline [] := by
    rw [hfile.repair .nil]
    cases s.file with
    | none => exact ⟨.missing rfl, rfl⟩
    | some raw => exact ⟨.ended [] torn_nil, rfl⟩
  unfold System.step
  simp only [hwatch, hafter, hresult, hstarted, toOption_map]
  cases hline : lineOf (start_record run_id now) with
  | error error =>
    obtain ⟨hraised, hsame, hlanded⟩ := append_raised (repair_tail s.file) cut hline
    simp only [hraised, hsame, hlanded]
    exact .idle rfl hrecorded rfl hrepaired.1
  | ok data =>
    have hid := scalar_of_line hline
    obtain ⟨line, hwhole⟩ : ∃ line, Whole (start_record run_id now) line := exists_line (isJson_start now hid)
    obtain ⟨hholds, hdone⟩ := append_spec cut hwhole hrepaired.2
    rw [List.nil_append] at hholds hdone
    have hlogged := logged_start adapter spec hid hwhole
    cases hresult' : ((append_watch_line cut (start_record run_id now)).result (repair_tail s.file)).toOption with
    | none =>
      cases hlanded : landed cut (start_record run_id now) with
      | false =>
        rw [hlanded, if_neg Bool.false_ne_true] at hholds
        exact .idle rfl hrecorded rfl hholds
      | true =>
        rw [hlanded, if_pos rfl] at hholds
        exact .begun run_id now [line] _ rfl (hrecorded ▸ hlogged) hholds (.inl rfl)
    | some a =>
      obtain ⟨hlanded, hclean⟩ := hdone (by rw [hresult']; rfl)
      rw [hlanded, if_pos rfl] at hholds
      simp only [hlanded, if_pos]
      exact .begun run_id now [line] _ rfl (hrecorded ▸ hlogged) hholds (.inr ⟨rfl, hclean⟩)

/-- A launch on a log goes on from it. -/
theorem Sound.launch (h : Sound adapter spec s) (run_id : Option Str) (now : Moment) (cut : Option Nat) :
    Sound adapter spec (s.step adapter spec (.launch run_id now cut)) := by
  cases hwatch : s.watch with
  | some stage =>
    have hsame : s.step adapter spec (.launch run_id now cut) = s := by
      unfold System.step
      simp only [hwatch]
    rw [hsame]
    exact h
  | none =>
    cases h with
    | idle hstarted hrecorded _ hfile => exact .dispatch run_id now cut hstarted hrecorded hwatch hfile
    | begun run_id' start_at lines stage hstarted hlogged hfile _ =>
      obtain ⟨log, hread, -, -, -, hresume⟩ := hlogged.read hfile
      obtain ⟨records, hwhole, hne⟩ := hlogged.whole
      obtain ⟨raw, hraw⟩ := hfile.some_of_ne hne
      unfold System.step
      simp only [hwatch, hstarted]
      by_cases hrun : run_id ≠ none ∧ log.run_id ≠ run_id
      · obtain ⟨hafter, hresult⟩ := launch_stranger adapter spec run_id now cut hread hrun
        rw [hafter, hresult]
        exact .begun run_id' start_at lines stage rfl hlogged hfile (.inl rfl)
      · obtain ⟨hafter, hresult⟩ := launch_known adapter spec run_id now cut hread hrun
        have hrepair : repair_tail s.file = some (unlines newline lines) := by
          rw [hfile.repair hwhole, hraw]
          rfl
        rw [hafter, hresult, hrepair, hresume]
        refine .begun run_id' start_at lines stage rfl hlogged ?_ (.inr ⟨rfl, rfl⟩)
        exact List.append_nil (unlines newline lines) ▸ .ended [] torn_nil

/-- A poll's line moves the watch once it is whole. -/
theorem Sound.poll (h : Sound adapter spec s) (poll_at : Moment) (world : World) (cut : Option Nat) :
    Sound adapter spec (s.step adapter spec (.poll poll_at world cut)) := by
  cases hwatch : s.watch with
  | none =>
    have hsame : s.step adapter spec (.poll poll_at world cut) = s := by
      unfold System.step
      simp only [hwatch]
    rw [hsame]
    exact h
  | some stage =>
    cases stage with
    | returned =>
      have hsame : s.step adapter spec (.poll poll_at world cut) = s := by
        unfold System.step
        simp only [hwatch]
      rw [hsame]
      exact h
    | polling w =>
      cases h with
      | idle _ _ hnone _ =>
        rw [hwatch] at hnone
        cases hnone
      | begun run_id start_at lines stage hstarted hlogged hfile halive =>
        rw [hwatch] at halive
        obtain ⟨rfl, hclean⟩ : stage = .polling w ∧ s.file = some (unlines newline lines) := by
          rcases halive with hnone | ⟨hsome, hclean⟩
          · cases hnone
          · exact ⟨(Option.some.inj hsome).symm, hclean⟩
        unfold System.step
        simp only [hwatch]
        cases hadvance : advance adapter spec w.run_id poll_at w.progress (observe spec world w.progress) with
        | error error =>
          obtain ⟨hafter, hresult⟩ := poll_error s.file cut hadvance
          simp only [hafter, hresult]
          exact .begun run_id start_at lines _ hstarted hlogged hfile (.inl rfl)
        | ok result =>
          obtain ⟨record, progress, complete⟩ := result
          obtain ⟨hafter, hresult⟩ := poll_ok s.file cut hadvance
          obtain ⟨line, hline, hnext⟩ := hlogged.poll (observe_fits world _) hadvance
          obtain ⟨hholds, hdone⟩ := append_spec cut hline (show s.file.getD [] = unlines newline lines by rw [hclean]; rfl)
          simp only [hafter, hresult, toOption_map]
          cases hresult' : ((append_watch_line cut record).result s.file).toOption with
          | none =>
            cases hlanded : landed cut record with
            | false =>
              rw [hlanded, if_neg Bool.false_ne_true] at hholds
              exact .begun run_id start_at lines _ hstarted hlogged hholds (.inl rfl)
            | true =>
              rw [hlanded, if_pos rfl] at hholds
              exact .begun run_id start_at _ _ hstarted hnext hholds (.inl rfl)
          | some a =>
            obtain ⟨hlanded, hclean'⟩ := hdone (by rw [hresult']; rfl)
            rw [hlanded, if_pos rfl] at hholds
            simp only [hlanded, if_pos]
            exact .begun run_id start_at _ _ hstarted hnext hholds (.inr ⟨rfl, hclean'⟩)

theorem Sound.step (h : Sound adapter spec s) (op : Op) : Sound adapter spec (s.step adapter spec op) := by
  cases op with
  | launch run_id now cut => exact h.launch run_id now cut
  | poll poll_at world cut => exact h.poll poll_at world cut
  | crash =>
    cases h with
    | idle hstarted hrecorded hwatch hfile => exact .idle hstarted hrecorded rfl hfile
    | begun run_id start_at lines stage hstarted hlogged hfile _ =>
      exact .begun run_id start_at lines stage hstarted hlogged hfile (.inl rfl)

theorem Sound.run (h : Sound adapter spec s) (ops : List Op) : Sound adapter spec (s.run adapter spec ops) := by
  induction ops generalizing s with
  | nil => exact h
  | cons op ops ih => exact ih (h.step op)

/-! ## Resumes -/

/-- What a watch that crashed anywhere is, against the one that nothing interrupts. -/
structure Resumes (adapter : FileWatcherAdapter) (spec : FwSpec) (s : System) (run_id : Option Str) (start_at : Moment)
    (stage : Stage) (log : WatchLog) : Prop where
  /-- Nothing else would have come of the recorded observations. -/
  feeds : uninterrupted adapter spec run_id start_at s.recorded = .ok stage
  /-- It completes at its last recorded poll, if it does. -/
  earlier : ∀ n < s.recorded.length,
    ∃ w, uninterrupted adapter spec run_id start_at (s.recorded.take n) = .ok (.polling w)
  alive : s.watch = none ∨ s.watch = some stage
  read : read_watch_log s.file = .ok (some log)
  repaired : read_watch_log (repair_tail s.file) = .ok (some log)
  run : log.run_id = run_id
  seq : log.watch_seq = s.recorded.length + 1
  /-- A launch of the run goes on as it. -/
  relaunch : s.watch = none → ∀ id, id = none ∨ id = run_id → ∀ now cut,
    (s.step adapter spec (.launch id now cut)).watch = some stage
  /-- Without two stable observations, only the first poll completes it. -/
  immediate : stage = .returned →
    log.complete = true ∨ fw_existence_immediate adapter spec = true ∧ s.recorded.length = 1

/-- The repair keeps the records the fold read, each on a line of its own. -/
def KeepsRecords (raw : Bytes) : Prop :=
  ∃ records lines, read_lines raw = .ok records ∧ repair_tail (some raw) = some (unlines newline lines) ∧
    lines.length = records.length ∧ read_lines (unlines newline lines) = .ok records

theorem Logged.resumes {lines : List Bytes} (h : Logged adapter spec run_id start_at s.recorded lines stage)
    (hfile : Holds lines s.file) (hwatch : s.watch = none ∨ s.watch = some stage) :
    ∃ log, Resumes adapter spec s run_id start_at stage log := by
  obtain ⟨log, hread, hid, -, hseq, hresume⟩ := h.read hfile
  obtain ⟨records, hwhole, hne⟩ := h.whole
  obtain ⟨raw, hraw⟩ := hfile.some_of_ne hne
  have hrepaired : Holds lines (repair_tail s.file) := by
    rw [hfile.repair hwhole, hraw]
    exact List.append_nil (unlines newline lines) ▸ .ended [] torn_nil
  refine ⟨log, h.feeds, h.earlier, hwatch, hread, ?_, hid, hseq, fun hdown id hknown now cut => ?_, ?_⟩
  · rw [hrepaired.read hwhole, ← hfile.read hwhole, hread]
  · have hrun : ¬(id ≠ none ∧ log.run_id ≠ id) := by
      rintro ⟨hsome, hother⟩
      exact hother (hid.trans (hknown.resolve_left hsome).symm)
    unfold System.step
    simp only [hdown, (launch_known adapter spec id now cut hread hrun).2, hresume]
    rfl
  · rintro rfl
    rw [Watch.resume] at hresume
    split at hresume
    · next hover =>
      refine (Bool.or_eq_true_iff.mp hover).imp_right fun hfirst => ?_
      obtain ⟨himmediate, -⟩ := Bool.and_eq_true_iff.mp hfirst
      obtain ⟨himmediate, htwo⟩ := Bool.and_eq_true_iff.mp himmediate
      have hlength := of_decide_eq_true htwo
      exact ⟨himmediate, by omega⟩
    · cases hresume

theorem Holds.keepsRecords {records : List Value} {lines : List Bytes} {raw : Bytes} (h : Holds lines (some raw))
    (hwhole : List.Forall₂ Whole records lines) : KeepsRecords raw := by
  refine ⟨records.map readBack, lines, h.read_lines hwhole, h.repair hwhole, ?_, ?_⟩
  · rw [List.length_map, hwhole.length_eq]
  · have hended : Holds lines (some (unlines newline lines)) :=
      List.append_nil (unlines newline lines) ▸ .ended [] torn_nil
    exact hended.read_lines hwhole

/-- **A resumed watch is the uninterrupted one.** Whatever launches, polls and crashes came before,
an append cut at any byte among them: before the dispatch is on disk there is nothing to read; after
it, the watch that lives, or that a launch would resume from the log, is the one that the recorded
observations make without interruption, and repairing the log keeps the records that were read. -/
theorem run_resumes (adapter : FileWatcherAdapter) (spec : FwSpec) (ops : List Op) :
    let s := System.run adapter spec {} ops
    (match s.started with
      | none => s.watch = none ∧ s.recorded = [] ∧ read_watch_log s.file = .ok none
      | some (run_id, start_at) => ∃ stage log, Resumes adapter spec s run_id start_at stage log) ∧
      ∀ raw, s.file = some raw → KeepsRecords raw := by
  intro s
  cases (sound_init adapter spec).run ops with
  | idle hstarted hrecorded hwatch hfile =>
    refine ⟨?_, fun raw hraw => Holds.keepsRecords (hraw ▸ hfile) .nil⟩
    rw [show s.started = none from hstarted]
    exact ⟨hwatch, hrecorded, hfile.read .nil⟩
  | begun run_id start_at lines stage hstarted hlogged hfile hwatch =>
    obtain ⟨records, hwhole, -⟩ := hlogged.whole
    refine ⟨?_, fun raw hraw => Holds.keepsRecords (hraw ▸ hfile) hwhole⟩
    rw [show s.started = some (run_id, start_at) from hstarted]
    exact ⟨stage, hlogged.resumes hfile (hwatch.imp_right And.left)⟩

end Dsl41.Watch
