import Dsl41.Watch.Adapter
import Dsl41.Watch.Lines

/-!
# The fold follows the watch

Folding the line of a poll does to the fold what the poll did to the watch; a resumed watch is the
one that wrote the lines.
-/

namespace Dsl41.Watch

open Infra Infra.Json Canon Runner

/-! ## Records -/

/-- A file whose sample a line can hold. -/
structure ValidFile (o : FileObservation) : Prop where
  path : o.path ≠ []
  scalar : isScalarString o.path = true
  device : 0 ≤ o.device
  inode : 0 ≤ o.inode
  size : 0 ≤ o.size

/-- A run id a line can hold. -/
def ScalarId (run_id : Option Str) : Prop := ∀ s ∈ run_id, isScalarString s = true

section Records

variable {run_id : Option Str} {poll_at : Moment} {size : Option Int} {qualifying : Bool} {stable : Nat}
  {files : List FileObservation} {o : FileObservation}

theorem isJson_optional (h : ScalarId run_id) : (optional run_id).written.IsJson := by
  cases run_id with
  | none => trivial
  | some s => exact h s rfl

theorem isJson_instant {d : DateTime} : (Value.datetime d).written.IsJson := isScalarString_ofChars _

theorem isJson_name {s : String} : (Value.str (name s)).written.IsJson := isScalarString_ofChars _

theorem isJson_versioned {fields : List (String × Value)}
    (hnodup : ("artifact_format_version" :: fields.map Prod.fst).Nodup) (h : ∀ f ∈ fields, f.2.written.IsJson) :
    (versioned fields).written.IsJson := by
  rw [versioned, written_named]
  refine isJson_named ?_ fun f hf => ?_
  · rw [List.map_map]
    exact hnodup
  · obtain ⟨field, hfield, rfl⟩ := List.mem_map.mp hf
    rcases List.mem_cons.mp hfield with rfl | hfield
    · trivial
    · exact h field hfield

variable (poll_at) in
theorem isJson_start (h : ScalarId run_id) : (start_record run_id poll_at).written.IsJson := by
  refine isJson_versioned (by simp) ?_
  simp only [List.forall_mem_cons]
  exact ⟨isJson_instant, isJson_name, isJson_optional h, nofun⟩

theorem isJson_poll (h : ScalarId run_id) : (poll_record run_id poll_at size qualifying stable).written.IsJson := by
  refine isJson_versioned (by simp) ?_
  simp only [List.forall_mem_cons]
  refine ⟨isJson_instant, trivial, isJson_name, trivial, isJson_optional h, ?_, trivial, nofun⟩
  cases size with
  | none => trivial
  | some i => trivial

theorem isJson_file (h : ValidFile o) : (fileOf o).written.IsJson := by
  rw [fileOf, written_named]
  refine isJson_named (by simp) ?_
  simp only [List.map_cons, List.map_nil, List.forall_mem_cons]
  exact ⟨h.scalar, trivial, trivial, trivial, trivial, trivial, nofun⟩

theorem writtenArray_eq : ∀ {vs : List Value}, Value.writtenArray vs = vs.map Value.written := by
  intro vs
  induction vs with
  | nil => rfl
  | cons v vs ih => rw [Value.writtenArray, ih, List.map_cons]

theorem isArray_of_all : ∀ {vs : List Value}, (∀ v ∈ vs, v.IsJson) → Value.IsArray vs
  | [], _ => trivial
  | _ :: _, h => ⟨h _ List.mem_cons_self, isArray_of_all fun v hv => h v (List.mem_cons_of_mem _ hv)⟩

variable (poll_at) in
theorem isJson_sample (h : ScalarId run_id) (hfiles : ∀ o ∈ files, ValidFile o) :
    (pattern_poll_record run_id poll_at files).written.IsJson := by
  refine isJson_versioned (by simp) ?_
  simp only [List.forall_mem_cons]
  refine ⟨isJson_name, isJson_optional h, isJson_instant, ?_, nofun⟩
  rw [Value.written, writtenArray_eq]
  refine isArray_of_all fun v hv => ?_
  obtain ⟨w, hw, rfl⟩ := List.mem_map.mp hv
  obtain ⟨o, ho, rfl⟩ := List.mem_map.mp hw
  exact isJson_file (hfiles o ho)

/-! ## What is read back of them -/

theorem get_versioned {fields : List (String × Value)} {key : String} {v : Value}
    (h : (versioned fields).written.IsJson) (hkey : key ≠ "artifact_format_version")
    (hv : Dict.getIn key fields = some v) : dictGet (readBack (versioned fields)) (name key) = readBack v := by
  rw [versioned, get_readBack _ h, Dict.getIn, if_neg (Ne.symm hkey), hv]
  rfl

theorem readBack_optional : readBack (optional run_id) = optional run_id := by
  cases run_id with
  | none => rfl
  | some s => rfl

theorem equal_optional : equal (optional run_id) (optional run_id) = true := by
  cases run_id with
  | none => rfl
  | some s => simp [optional, equal, Value.sorted, equalSorted]

@[simp] theorem equal_names {a b : String} : equal (.str (name a)) (.str (name b)) = decide (a = b) := by
  simp [equal, Value.sorted, equalSorted]

theorem filterMap_ofChars {cs : List Char} : (ofChars cs).filterMap Code.char? = cs := by
  rw [ofChars, List.filterMap_map]
  exact List.filterMap_some

/-- A line's instant reads back. -/
theorem watch_at_versioned {fields : List (String × Value)} (h : (versioned fields).written.IsJson)
    (hat : Dict.getIn "at" fields = some (.datetime poll_at)) :
    watch_at (readBack (versioned fields)) = .ok poll_at := by
  have hread : unstamp ((ofChars poll_at.1.isoformat).filterMap Code.char?) = .ok poll_at := by
    rw [filterMap_ofChars, unstamp_isoformat]
  have hstamp : readBack (.datetime poll_at) = .str (ofChars poll_at.1.isoformat) := rfl
  rw [watch_at, get_versioned h (by decide) hat, hstamp]
  simp only [hread]

theorem watch_file_readBack (h : ValidFile o) : watch_file (readBack (fileOf o)) = .ok o := by
  obtain ⟨es, hes⟩ : ∃ es, readBack (fileOf o) = .mapping es := by
    rw [readBack, fileOf, written_named, named, Value.sorted]
    exact ⟨_, rfl⟩
  have hjson := isJson_file h
  have hpath : dictGet (readBack (fileOf o)) (name "path") = .str o.path := get_readBack _ hjson
  have hdevice : dictGet (readBack (fileOf o)) (name "device") = .int o.device := get_readBack _ hjson
  have hinode : dictGet (readBack (fileOf o)) (name "inode") = .int o.inode := get_readBack _ hjson
  have hsize : dictGet (readBack (fileOf o)) (name "size") = .int o.size := get_readBack _ hjson
  have hmtime : dictGet (readBack (fileOf o)) (name "mtime_ns") = .int o.mtime_ns := get_readBack _ hjson
  have hctime : dictGet (readBack (fileOf o)) (name "ctime_ns") = .int o.ctime_ns := get_readBack _ hjson
  have hsigns : ¬(o.device < 0 ∨ o.inode < 0 ∨ o.size < 0) := by
    obtain ⟨-, -, hd, hi, hs⟩ := h
    omega
  rw [hes] at hpath hdevice hinode hsize hmtime hctime ⊢
  simp only [watch_file, hpath, hdevice, hinode, hsize, hmtime, hctime, if_neg h.path, if_neg hsigns]

theorem readBack_list {vs : List Value} : readBack (.list vs) = .list (vs.map readBack) := by
  rw [readBack, Value.written, Value.sorted, writtenArray_eq, Value.sortedArray_eq, List.map_map]
  rfl

/-- A sample's files read back. -/
theorem watch_files_readBack (poll_at : Moment) (h : ScalarId run_id) (hfiles : ∀ o ∈ files, ValidFile o) :
    watch_files (readBack (pattern_poll_record run_id poll_at files)) = .ok files := by
  rw [watch_files, pattern_poll_record, get_versioned (isJson_sample poll_at h hfiles) (by decide) rfl, readBack_list]
  show ((files.map fileOf).map readBack).mapM watch_file = .ok files
  clear h
  induction files with
  | nil => rfl
  | cons o files ih =>
    rw [List.map_cons, List.map_cons, List.mapM_cons, watch_file_readBack (hfiles o List.mem_cons_self), Infra.ok_bind,
      ih fun o ho => hfiles o (List.mem_cons_of_mem _ ho)]
    rfl

end Records

/-! ## One line folded -/

section Step

variable {run_id : Option Str} {poll_at : Moment} {size previous : Option Int} {qualifying : Bool} {stable position : Nat}
  {files : List FileObservation} {acc : Fold} {pattern pattern' : PatternWatchProgress} {immediate : Bool}

/-- A line of the run is folded by its kind. -/
theorem fold_record_named {fields : List (String × Value)} (position : Nat) (acc : Fold) (h : (versioned fields).written.IsJson)
    (hrun : Dict.getIn "run_id" fields = some (optional run_id)) :
    fold_record run_id position acc (readBack (versioned fields)) =
      if equal (dictGet (readBack (versioned fields)) (name "kind")) (.str (name "sample")) then do
        let _ ← watch_at (readBack (versioned fields))
        let pattern ← fold_pattern_poll (acc.pattern.getD { polls := position - 2 })
          (← watch_files (readBack (versioned fields))) false
        return { acc with last := some (readBack (versioned fields)), pattern := some pattern }
      else fold_poll position acc (readBack (versioned fields)) := by
  rw [fold_record, get_versioned h (by decide) hrun, readBack_optional, equal_optional]
  rfl

theorem fold_sample (position : Nat) (poll_at : Moment) (h : ScalarId run_id) (hfiles : ∀ o ∈ files, ValidFile o)
    (hfold : fold_pattern_poll (acc.pattern.getD { polls := position - 2 }) files false = .ok pattern) :
    fold_record run_id position acc (readBack (pattern_poll_record run_id poll_at files)) =
      .ok { acc with last := some (readBack (pattern_poll_record run_id poll_at files)), pattern := some pattern } := by
  have hjson := isJson_sample poll_at h hfiles
  have hkind : dictGet (readBack (pattern_poll_record run_id poll_at files)) (name "kind") = .str (name "sample") :=
    get_versioned hjson (by decide : "kind" ≠ _) rfl
  have hrecord := fold_record_named position acc hjson rfl
  rw [pattern_poll_record] at hkind ⊢
  rw [hrecord, hkind, equal_names, decide_eq_true rfl, if_pos rfl, watch_at_versioned hjson rfl, Infra.ok_bind]
  have hread := watch_files_readBack poll_at h hfiles
  rw [pattern_poll_record] at hread
  rw [hread, Infra.ok_bind, hfold]
  rfl

theorem fold_exact (position : Nat) (poll_at : Moment) (h : ScalarId run_id) (hpattern : acc.pattern = none) (hsize : qualifying = true → size.isSome)
    (hstable : derive_stable acc.derived_stable acc.previous_size size qualifying = stable) :
    fold_record run_id position acc (readBack (poll_record run_id poll_at size qualifying stable)) =
      .ok { acc with
        last := some (readBack (poll_record run_id poll_at size qualifying stable))
        derived_stable := stable
        previous_size := if qualifying then size else none } := by
  have hjson : (poll_record run_id poll_at size qualifying stable).written.IsJson := isJson_poll h
  have hget : ∀ {key : String} {v : Value}, key ≠ "artifact_format_version" → Dict.getIn key
      [("at", .datetime poll_at.1), ("exists", .bool size.isSome), ("kind", .str (name "poll")),
        ("qualifying", .bool qualifying), ("run_id", optional run_id), ("size", sizeOf size),
        ("stable_polls", .int stable)] = some v →
      dictGet (readBack (poll_record run_id poll_at size qualifying stable)) (name key) = readBack v :=
    fun hkey hv => get_versioned hjson hkey hv
  have hkind : dictGet (readBack (poll_record run_id poll_at size qualifying stable)) (name "kind") =
      .str (name "poll") := hget (by decide : "kind" ≠ _) rfl
  have hread : sizeField position (readBack (poll_record run_id poll_at size qualifying stable)) = .ok size := by
    rw [sizeField, hget (v := sizeOf size) (by decide) rfl]
    cases size with
    | none => rfl
    | some i => rfl
  have hqualifying : boolField (readBack (poll_record run_id poll_at size qualifying stable)) (name "qualifying")
      (.qualifying position) = .ok qualifying := by
    rw [boolField, hget (v := .bool qualifying) (by decide) rfl]
    rfl
  have hexists : boolField (readBack (poll_record run_id poll_at size qualifying stable)) (name "exists")
      (.exists position) = .ok size.isSome := by
    rw [boolField, hget (v := .bool size.isSome) (by decide) rfl]
    rfl
  have hpresent : ¬(size.isNone ≠ !size.isSome) := by
    cases size with
    | none => simp
    | some i => simp
  have hnone : (qualifying && size.isNone) = false := by
    cases qualifying with
    | false => rfl
    | true =>
      cases size with
      | none => exact absurd (hsize rfl) (by simp)
      | some i => rfl
  have hcount : dictGet (readBack (poll_record run_id poll_at size qualifying stable)) (name "stable_polls") =
      .int stable := hget (v := .int stable) (by decide) rfl
  have hrecord := fold_record_named position acc hjson rfl
  rw [← poll_record] at hrecord
  rw [hrecord, hkind, equal_names, if_neg (by decide), fold_poll]
  simp only [hkind, equal_names, decide_true, Bool.not_true, hpattern, Option.isSome_none, Bool.or_false, hread,
    hqualifying, hexists, Infra.ok_bind, if_neg hpresent, hnone, hstable, hcount, equal_int_self]
  rfl

/-- The first-poll rule only adds a completion. -/
theorem fold_pattern_immediate : fold_pattern_poll pattern files immediate =
    (fold_pattern_poll pattern files false).map fun next =>
      { next with complete := next.complete ||
          (immediate && pattern.polls = 0 && !next.previous.entries.isEmpty) } := by
  unfold fold_pattern_poll
  dsimp only
  split
  · rfl
  · simp only [Except.map, Except.ok.injEq, PatternWatchProgress.mk.injEq, true_and, Bool.false_and, Bool.or_false]
    cases pattern.complete with
    | true => rfl
    | false =>
      cases hstart : (immediate && decide (pattern.polls = 0) && !(byPath files).entries.isEmpty) with
      | true => simp
      | false => simp

theorem fold_pattern_polls (h : fold_pattern_poll pattern files immediate = .ok pattern') :
    pattern'.polls = pattern.polls + 1 := by
  unfold fold_pattern_poll at h
  dsimp only at h
  split at h
  · cases h
  · cases h
    rfl

end Step

/-! ## The fold and the watch -/

/-- The last line is of a poll that qualified. -/
def Fold.qualified (acc : Fold) : Bool := acc.last.any fun last => truthy (dictGet last (name "qualifying"))

/-- The fold of so many polls holds what the watch that made them knows. -/
inductive Follows (adapter : FileWatcherAdapter) (spec : FwSpec) (n : Nat) (acc : Fold) : Progress → Prop
  | exact {previous : Option Int} {stable : Nat} (hspec : is_pattern spec = false) (hpattern : acc.pattern = none)
      (hstable : acc.derived_stable = stable) (hprevious : acc.previous_size = previous)
      (hseen : (if acc.qualified then acc.last.bind lastSize else none) = previous) (hfew : stable < FW_STABLE_POLLS)
      (hfirst : fw_existence_immediate adapter spec = true → n = 1 → acc.qualified = false) :
      Follows adapter spec n acc (.exact previous stable (decide (n = 0)))
  | sampled {pattern : PatternWatchProgress} (hspec : is_pattern spec = true)
      (hpattern : acc.pattern = if n = 0 then none else some pattern) (hstart : n = 0 → pattern = {})
      (hstable : acc.derived_stable = 0) (hpolls : pattern.polls = n) (hcomplete : pattern.complete = false)
      (hfirst : fw_existence_immediate adapter spec = true → n = 1 → pattern.previous.entries.isEmpty = true) :
      Follows adapter spec n acc (.sampled pattern)

section Follows

variable {adapter : FileWatcherAdapter} {spec : FwSpec} {n : Nat} {acc : Fold} {progress progress' : Progress}
  {run_id : Option Str} {start_at : DateTime} {last_at : Option DateTime} {poll_at : Moment}

theorem follows_fresh : Follows adapter spec 0 {} (fresh spec) := by
  unfold fresh
  split
  · next h => exact .sampled h rfl (fun _ => rfl) rfl rfl rfl (fun _ h => nomatch h)
  · next h => exact .exact (Bool.eq_false_iff.mpr h) rfl rfl rfl rfl (by decide) (fun _ h => nomatch h)

/-- A watch goes on from the fold of its lines. -/
theorem Follows.resume (h : Follows adapter spec n acc progress) :
    resume adapter spec (acc.log run_id start_at last_at (n + 1)) =
      .polling { run_id, progress,
                 next_at := (acc.log run_id start_at last_at (n + 1)).next_poll_at (interval adapter spec) } := by
  cases h with
  | @exact previous stable hspec hpattern hstable hprevious hseen hfew hfirst =>
    have hlog : (acc.log run_id start_at last_at (n + 1)).pattern = none := hpattern
    have hqualifying : (acc.log run_id start_at last_at (n + 1)).qualifying = acc.qualified := by
      simp only [Fold.log, hpattern]
      rfl
    have hsize : (acc.log run_id start_at last_at (n + 1)).size = acc.last.bind lastSize := by
      simp [Fold.log, hpattern]
    have hcount : (acc.log run_id start_at last_at (n + 1)).stable_polls = stable := by
      simp only [Fold.log, hpattern, hstable]
    have hcomplete : (acc.log run_id start_at last_at (n + 1)).complete = false := by
      simp only [WatchLog.complete, hlog, hcount]
      exact decide_eq_false (Nat.not_le.mpr hfew)
    have himmediate : (fw_existence_immediate adapter spec && decide (n + 1 = 2) && acc.qualified) = false := by
      cases himm : fw_existence_immediate adapter spec with
      | false => rfl
      | true =>
        by_cases hn : n = 1
        · rw [hfirst himm hn, Bool.and_false]
        · simp [hn]
    have hseq : (acc.log run_id start_at last_at (n + 1)).watch_seq = n + 1 := rfl
    have hpending : decide (n + 1 = 1) = decide (n = 0) := by simp
    simp only [Watch.resume, hspec, hlog, hqualifying, hsize, hcount, hcomplete, hseq, himmediate, hseen, hpending,
      Option.isSome_none, Bool.or_false, Bool.false_eq_true, if_false]
    rfl
  | @sampled pattern hspec hpattern hstart hstable hpolls hcomplete hfirst =>
    have hlog : (acc.log run_id start_at last_at (n + 1)).pattern = acc.pattern := rfl
    have hseq : (acc.log run_id start_at last_at (n + 1)).watch_seq = n + 1 := rfl
    by_cases hn : n = 0
    · rw [if_pos hn] at hpattern
      have hcount : (acc.log run_id start_at last_at (n + 1)).stable_polls = 0 := by
        simp only [Fold.log, hpattern, hstable]
      have hcomplete' : (acc.log run_id start_at last_at (n + 1)).complete = false := by
        simp only [WatchLog.complete, hlog, hpattern, hcount]
        rfl
      obtain rfl := hstart hn
      subst hn
      simp only [Watch.resume, hspec, hlog, hpattern, hcomplete', hseq, Bool.true_or, if_true, Option.getD_none,
        Bool.false_or]
      rw [if_neg (by simp)]
      rfl
    · rw [if_neg hn] at hpattern
      have hqualifying : (acc.log run_id start_at last_at (n + 1)).qualifying = !pattern.previous.entries.isEmpty := by
        simp only [Fold.log, hpattern]
      have hcomplete' : (acc.log run_id start_at last_at (n + 1)).complete = false := by
        simp only [WatchLog.complete, hlog, hpattern, hcomplete]
      have himmediate : (fw_existence_immediate adapter spec && decide (n + 1 = 2) &&
          !pattern.previous.entries.isEmpty) = false := by
        cases himm : fw_existence_immediate adapter spec with
        | false => rfl
        | true =>
          by_cases hn : n = 1
          · rw [hfirst himm hn, Bool.not_true, Bool.and_false]
          · simp [hn]
      simp only [Watch.resume, hspec, hlog, hpattern, hqualifying, hcomplete', hseq, himmediate, Bool.true_or,
        if_true, Option.getD_some, Bool.or_false, Bool.false_eq_true, if_false]
      rfl

variable (spec) in
/-- A size that qualifies is one. -/
theorem isSome_of_qualifies {size : Option Int} (h : (size.any fun size => decide (min_size spec ≤ size)) = true) :
    size.isSome := by
  cases size with
  | none => cases h
  | some i => rfl

theorem qualified_poll {size : Option Int} {qualifying : Bool} {stable : Nat} (h : ScalarId run_id) {rest : Fold}
    (hlast : rest.last = some (readBack (poll_record run_id poll_at size qualifying stable))) :
    rest.qualified = qualifying ∧ rest.last.bind lastSize = size := by
  have hjson : (poll_record run_id poll_at size qualifying stable).written.IsJson := isJson_poll h
  have hqualifying : dictGet (readBack (poll_record run_id poll_at size qualifying stable)) (name "qualifying") =
      .bool qualifying := get_versioned hjson (by decide : "qualifying" ≠ _) rfl
  have hsize : dictGet (readBack (poll_record run_id poll_at size qualifying stable)) (name "size") =
      readBack (sizeOf size) := get_versioned hjson (by decide : "size" ≠ _) rfl
  rw [Fold.qualified, hlast, Option.any_some, hqualifying, Option.bind_some, lastSize, hsize]
  refine ⟨rfl, ?_⟩
  cases size with
  | none => rfl
  | some i => rfl

/-- An observation of a watch's mode whose line can be written. -/
def Fits : Progress → Observation → Prop
  | .exact .., .size _ => True
  | .sampled _, .files files => ∀ o ∈ files, ValidFile o
  | _, _ => False

variable {record : Value} {complete : Bool}

/-- A poll's line has a text, and folding it does to the fold what the poll does to the watch. -/
structure Steps (adapter : FileWatcherAdapter) (spec : FwSpec) (n : Nat) (acc : Fold) (run_id : Option Str)
    (poll_at : Moment) (record : Value) (progress' : Progress) (complete : Bool) : Prop where
  line : ∃ line, Whole record line
  instant : watch_at (readBack record) = .ok poll_at.1
  fold : ∃ acc', fold_record run_id (n + 2) acc (readBack record) = .ok acc' ∧ acc'.last = some (readBack record) ∧
    if complete then ∀ run_id start_at last_at,
      Watch.resume adapter spec (acc'.log run_id start_at last_at (n + 2)) = .returned
    else Follows adapter spec (n + 1) acc' progress'

theorem step_exact {previous size : Option Int} {stable : Nat}
    (h : Follows adapter spec n acc (.exact previous stable (decide (n = 0)))) (hid : ScalarId run_id)
    (hadvance : advance adapter spec run_id poll_at (.exact previous stable (decide (n = 0))) (.size size) =
      .ok (record, progress', complete)) :
    Steps adapter spec n acc run_id poll_at record progress' complete := by
  obtain ⟨hspec, hpattern, hstable, hprevious⟩ : is_pattern spec = false ∧ acc.pattern = none ∧
      acc.derived_stable = stable ∧ acc.previous_size = previous := by
    cases h with
    | exact hspec hpattern hstable hprevious hseen hfew hfirst => exact ⟨hspec, hpattern, hstable, hprevious⟩
  rw [advance] at hadvance
  generalize hqualifying : (size.any fun size => decide (min_size spec ≤ size)) = qualifying at hadvance
  generalize hderived : derive_stable stable previous size qualifying = derived at hadvance
  cases hadvance
  have hjson : (poll_record run_id poll_at size qualifying derived).written.IsJson := isJson_poll hid
  have hfold := fold_exact (n + 2) poll_at hid hpattern
    (fun hq => isSome_of_qualifies spec (hqualifying.trans hq)) (by rw [hstable, hprevious, hderived])
  refine ⟨exists_line hjson, watch_at_versioned hjson rfl, _, hfold, rfl, ?_⟩
  generalize hacc : ({ acc with
    last := some (readBack (poll_record run_id poll_at size qualifying derived))
    derived_stable := derived
    previous_size := if qualifying then size else none } : Fold) = acc'
  have hlast : acc'.last = some (readBack (poll_record run_id poll_at size qualifying derived)) := by rw [← hacc]
  have hnone : acc'.pattern = none := by rw [← hacc]; exact hpattern
  have hcount : acc'.derived_stable = derived := by rw [← hacc]
  have hsize : acc'.previous_size = if qualifying then size else none := by rw [← hacc]
  obtain ⟨hqualified, hseen⟩ := qualified_poll hid hlast
  split
  · next hcomplete =>
    intro run_id' start_at last_at
    have hlog : (acc'.log run_id' start_at last_at (n + 2)).qualifying = qualifying := by
      rw [← hqualified]
      simp only [Fold.log, hnone]
      rfl
    have hover : ((acc'.log run_id' start_at last_at (n + 2)).complete ||
        (fw_existence_immediate adapter spec && decide ((acc'.log run_id' start_at last_at (n + 2)).watch_seq = 2) &&
          (acc'.log run_id' start_at last_at (n + 2)).qualifying)) = true := by
      have hwatch : (acc'.log run_id' start_at last_at (n + 2)).complete = decide (FW_STABLE_POLLS ≤ derived) := by
        simp only [WatchLog.complete, Fold.log, hnone, hcount]
      have hseq : decide ((acc'.log run_id' start_at last_at (n + 2)).watch_seq = 2) = decide (n = 0) := by
        simp [Fold.log]
      rw [hwatch, hseq, hlog]
      exact hcomplete
    rw [Watch.resume, if_pos hover]
  · next hcomplete =>
    obtain ⟨hfew, hfirst⟩ := Bool.or_eq_false_iff.mp (Bool.eq_false_iff.mpr hcomplete)
    have hpending : false = decide (n + 1 = 0) := by simp
    rw [hpending]
    refine .exact hspec hnone hcount hsize ?_ (Nat.not_le.mp (of_decide_eq_false hfew)) fun himm hn => ?_
    · rw [hqualified, hseen]
    · have hzero : n = 0 := by omega
      rw [hqualified]
      simpa [himm, hzero] using hfirst

theorem step_sampled {files : List FileObservation} {pattern : PatternWatchProgress}
    (h : Follows adapter spec n acc (.sampled pattern)) (hid : ScalarId run_id) (hfiles : ∀ o ∈ files, ValidFile o)
    (hadvance : advance adapter spec run_id poll_at (.sampled pattern) (.files files) =
      .ok (record, progress', complete)) :
    Steps adapter spec n acc run_id poll_at record progress' complete := by
  cases h with
  | sampled hspec hpattern hstart hstable hpolls hcomplete hfirst =>
    rw [advance] at hadvance
    obtain ⟨next, hnext, hadvance⟩ := Infra.bind_eq_ok.mp hadvance
    cases hadvance
    rw [fold_pattern_immediate] at hnext
    obtain ⟨plain, hplain, hnext⟩ := Infra.map_eq_ok.mp hnext
    have hpolls' := fold_pattern_polls hplain
    have hfound : acc.pattern.getD { polls := n + 2 - 2 } = pattern := by
      rw [hpattern]
      split
      · next hn =>
        subst hn
        exact (hstart rfl).symm
      · rfl
    have hjson := isJson_sample poll_at hid hfiles
    have hfold := fold_sample (n + 2) poll_at hid hfiles (hfound.symm ▸ hplain)
    refine ⟨exists_line hjson, watch_at_versioned hjson rfl, _, hfold, rfl, ?_⟩
    obtain rfl : next = { plain with complete := plain.complete || (fw_existence_immediate adapter spec &&
      decide (pattern.polls = 0) && !plain.previous.entries.isEmpty) } := hnext.symm
    split
    · next hover =>
      intro run_id' start_at last_at
      have hseq : decide (n + 2 = 2) = decide (pattern.polls = 0) := by
        rw [hpolls]
        simp
      simp only [Watch.resume, WatchLog.complete, Fold.log, hspec, Bool.true_or, if_true, hseq]
      rw [if_pos hover]
    · next hover =>
      obtain ⟨hplain', hstart'⟩ := Bool.or_eq_false_iff.mp (Bool.eq_false_iff.mpr hover)
      have hsame : ({ plain with complete := plain.complete || (fw_existence_immediate adapter spec &&
          decide (pattern.polls = 0) && !plain.previous.entries.isEmpty) } : PatternWatchProgress) = plain := by
        rw [hplain', hstart', Bool.or_self, ← hplain']
      rw [hsame]
      refine .sampled hspec rfl (fun hn => absurd hn (Nat.succ_ne_zero n)) hstable (hpolls'.trans (by rw [hpolls]))
        hplain' fun himm hn => ?_
      have hzero : pattern.polls = 0 := by omega
      simpa [himm, hzero] using hstart'

theorem Follows.step {observation : Observation} (h : Follows adapter spec n acc progress)
    (hid : ScalarId run_id) (hfits : Fits progress observation)
    (hadvance : advance adapter spec run_id poll_at progress observation = .ok (record, progress', complete)) :
    Steps adapter spec n acc run_id poll_at record progress' complete := by
  cases progress with
  | exact previous stable first_poll_pending =>
    cases observation with
    | files files => exact hfits.elim
    | size size =>
      have hpending : first_poll_pending = decide (n = 0) := by
        cases h with
        | exact => rfl
      subst hpending
      exact step_exact h hid hadvance
  | sampled pattern =>
    cases observation with
    | size size => exact hfits.elim
    | files files => exact step_sampled h hid hfits hadvance

end Follows

end Dsl41.Watch
