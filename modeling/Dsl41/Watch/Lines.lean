import Dsl41.Watch.Log

/-!
# The lines of a log

A record's line holds its canonical text: no newline, JSON as a whole and no JSON cut short. A file
holds some lines when they are what the fold reads of it and what the repair keeps.
-/

namespace Dsl41.Watch

open Infra Infra.Json Canon Runner

/-! ## One line -/

/-- A record as its line reads back. -/
def readBack (record : Value) : Value := record.written.sorted

/-- A line holds a record. -/
structure Whole (record : Value) (line : Bytes) : Prop where
  line_eq : lineOf record = .ok (line ++ [newline])
  one_line : newline ∉ line
  nonempty : line ≠ []
  decoded : decode (.inl line.toByteArray) = .ok (readBack record)
  json : is_json line = true
  torn : ∀ p, p <+: line → p ≠ line → is_json p = false
  mapping : ∃ es, readBack record = .mapping es
  version : dictGet (readBack record) versionKey = .int ARTIFACT_FORMAT_VERSION

section Line

variable {record : Value} {line : Bytes} {t cs : List Char} {fields : List (String × Value)} {key : String}

theorem is_json_utf8 : is_json (utf8 cs) = (loads syntaxOnly (ofChars cs)).toOption.isSome := by
  rw [is_json, toByteArray_utf8, List.utf8Decode?_utf8Encode]

/-- The field of a name. -/
theorem get_named : dictGet (named fields) (name key) = (Dict.getIn key fields).getD .none := by
  show (Dict.getIn (name key) (fields.map fun f => (name f.1, f.2))).getD .none = _
  congr 1
  induction fields with
  | nil => rfl
  | cons f fields ih => simp only [List.map_cons, Dict.getIn, name_inj, ih]

theorem getIn_written : Dict.getIn key (fields.map fun f => (f.1, f.2.written)) =
    (Dict.getIn key fields).map Value.written := by
  induction fields with
  | nil => rfl
  | cons f fields ih =>
    rw [List.map_cons, Dict.getIn, Dict.getIn, ih]
    split
    · rfl
    · rfl

theorem get_readBack (key : String) (h : (named fields).written.IsJson) :
    dictGet (readBack (named fields)) (name key) = readBack ((Dict.getIn key fields).getD .none) := by
  rw [readBack, get_sorted h, written_named, get_named, getIn_written]
  cases Dict.getIn key fields with
  | none => rfl
  | some v => rfl

theorem versionOk_versioned (h : (versioned fields).written.IsJson) : (versioned fields).written.VersionOk := by
  rw [versioned, written_named, List.map_cons, named, List.map_cons] at h ⊢
  intro v hv
  rcases List.mem_cons.mp hv with hv | hv
  · exact (Prod.mk.inj hv).2
  · have hnew := (List.nodup_cons.mp h.1).1
    exact absurd (List.mem_map_of_mem hv) hnew

/-- What spells a mapping starts with a brace. -/
theorem spells_mapping {text : Str} {es : List (Str × Value)} (h : Spells builder text (.mapping es)) :
    ∃ u, text = .scalar '\x7b' :: u := by
  generalize hv : Value.mapping es = v at h
  cases h with
  | null => cases hv
  | isTrue => cases hv
  | isFalse => cases hv
  | int i => cases hv
  | str h => cases hv
  | empty => cases hv
  | list h => cases hv
  | bare h => exact ⟨_, rfl⟩
  | object h ho => exact ⟨_, rfl⟩

theorem toList_toByteArray : (String.ofList cs).toByteArray.data.toList = utf8 cs := by
  rw [String.toByteArray_ofList, ← toByteArray_utf8]
  simp

/-- A text that stops inside an object is no JSON. -/
theorem is_json_cut {u : Str} {bytes : Bytes} (h : Spells syntaxOnly (ofChars cs) ()) (hu : ofChars cs = .scalar '\x7b' :: u)
    (hp : bytes <+: utf8 cs) (hne : bytes ≠ utf8 cs) : is_json bytes = false := by
  rw [is_json]
  split
  · rfl
  · next text htext =>
    obtain ⟨hbegins, rfl⟩ := prefix_of_utf8Decode? hp htext
    have hcut : ofChars text.toList ≠ .scalar '\x7b' :: u := by
      intro heq
      refine hne (congrArg utf8 ?_)
      exact List.map_injective_iff.mpr (fun _ _ h => by cases h; rfl) (heq.trans hu.symm)
    have hrefused := loads_begins (hu ▸ h) (hu ▸ hbegins.map Code.scalar) hcut
    cases hloads : loads syntaxOnly (ofChars text.toList) with
    | error e => rfl
    | ok v => exact absurd hloads (hrefused v)

/-- A record of JSON values and instants has a line. -/
theorem exists_line (h : (versioned fields).written.IsJson) : ∃ line, Whole (versioned fields) line := by
  obtain ⟨t, ht, hspells⟩ := write_spells (ofChars ['$']) _ h
  obtain ⟨bytes, hbytes, hdecode⟩ := decode_canonicalBytes h (versionOk_versioned h)
  have hcanonical : canonicalBytes (versioned fields).written = .ok (String.ofList t).toByteArray := by
    rw [canonicalBytes, ht]
    rfl
  obtain rfl : (String.ofList t).toByteArray = bytes := Except.ok.inj (hcanonical.symm.trans hbytes)
  obtain ⟨es, hes⟩ : ∃ es, readBack (versioned fields) = .mapping es := by
    rw [readBack, versioned, written_named, named, Value.sorted]
    exact ⟨_, rfl⟩
  have hobject : Spells builder (ofChars t) (.mapping es) := hes ▸ hspells
  obtain ⟨u, hu⟩ := spells_mapping hobject
  refine ⟨utf8 t, ?_, ?_, ?_, ?_, ?_, fun p hp hne => ?_, ⟨es, hes⟩, ?_⟩
  · rw [lineOf, ← canonicalBytes_written, hcanonical]
    simp only [toList_toByteArray]
  · intro hmem
    have hcontrol := hspells.printable (.scalar '\n') (List.mem_map_of_mem (newline_mem_utf8 hmem))
    exact absurd hcontrol (by decide)
  · intro hnil
    cases t with
    | nil => cases hu
    | cons c t => simp [utf8] at hnil
  · rw [String.toByteArray_ofList, ← toByteArray_utf8] at hdecode
    exact hdecode
  · rw [is_json_utf8, loads_spells hspells.syntaxOnly]
    rfl
  · exact is_json_cut hspells.syntaxOnly hu hp hne
  · exact get_readBack "artifact_format_version" h

end Line

/-! ## A file of lines -/

/-- What a crash left of a line. -/
structure Torn (tail : Bytes) : Prop where
  one_line : newline ∉ tail
  not_json : tail ≠ [] → is_json tail = false

theorem torn_nil : Torn [] := ⟨List.not_mem_nil, fun h => absurd rfl h⟩

/-- A file holds some lines: the last may lack its newline, or a torn one may follow it. -/
inductive Holds (lines : List Bytes) : Option Bytes → Prop
  | missing (h : lines = []) : Holds lines none
  | ended (tail : Bytes) (h : Torn tail) : Holds lines (some (unlines newline lines ++ tail))
  | unended (ls : List Bytes) (last : Bytes) (h : lines = ls ++ [last]) :
      Holds lines (some (unlines newline ls ++ last))

section Files

variable {records : List Value} {lines : List Bytes} {file : Option Bytes} {record : Value} {line tail : Bytes}
  {position : Nat} {torn : Bool}

/-- Lines that hold records are read back one by one. -/
theorem read_whole (h : List.Forall₂ Whole records lines) (rest : List Bytes) :
    read_records torn position (lines ++ rest) =
      (read_records torn (position + lines.length) rest).map (records.map readBack ++ ·) := by
  induction h generalizing position with
  | nil =>
    show read_records torn position rest = (read_records torn position rest).map fun read => [] ++ read
    cases read_records torn position rest with
    | error e => rfl
    | ok read => rfl
  | @cons record line records lines h _ ih =>
    obtain ⟨es, hes⟩ := h.mapping
    have hposition : position + (line :: lines).length = position + 1 + lines.length := by
      rw [List.length_cons]
      omega
    rw [List.cons_append, read_records, if_neg h.nonempty, h.json, hposition]
    simp only [Bool.not_true, Bool.and_false, Bool.false_eq_true, if_false, h.decoded, hes]
    show (read_records torn (position + 1) (lines ++ rest) >>= fun read => Except.ok (.mapping es :: read)) = _
    rw [ih, List.map_cons, hes]
    cases read_records torn (position + 1 + lines.length) rest with
    | error e => rfl
    | ok read => rfl

theorem equal_int_self {i : Int} : equal (.int i) (.int i) = true := by
  simp [equal, Value.sorted, equalSorted, number?]

theorem check_whole (h : List.Forall₂ Whole records lines) : check_versions position (records.map readBack) = .ok () := by
  induction h generalizing position with
  | nil => rfl
  | cons h _ ih => rw [List.map_cons, check_versions, h.version, if_pos equal_int_self, ih]

/-- The log of some records, read back. -/
def logOf (records : List Value) : Except EngineError (Option WatchLog) :=
  match records.map readBack with
  | [] => .ok none
  | start :: records => (foldLog start records).map some

theorem exists_record (h : List.Forall₂ Whole records lines) (hl : line ∈ lines) : ∃ record, Whole record line := by
  induction h with
  | nil => cases hl
  | cons h _ ih =>
    rcases List.mem_cons.mp hl with rfl | hl
    · exact ⟨_, h⟩
    · exact ih hl

/-- A file's lines as the reader splits them. -/
theorem Holds.splitOn {raw : Bytes} (h : Holds lines (some raw)) (hwhole : List.Forall₂ Whole records lines) :
    ∃ rest, (raw.splitOn newline).getLast? ≠ some [] ∧ raw.splitOn newline = lines ++ rest ∧
        (rest = [] ∨ ∃ tail, rest = [tail] ∧ tail ≠ [] ∧ is_json tail = false) ∨
      (raw.splitOn newline).getLast? = some [] ∧ (raw.splitOn newline).dropLast = lines ∧ rest = [] := by
  have hone : ∀ l ∈ lines, newline ∉ l := fun l hl => (exists_record hwhole hl).elim fun _ h => h.one_line
  cases h with
  | ended tail htail =>
    have hsplit := splitOn_unlines hone htail.one_line
    by_cases hnil : tail = []
    · subst hnil
      exact ⟨[], .inr (by rw [hsplit]; simp)⟩
    · refine ⟨[tail], .inl ⟨?_, hsplit, .inr ⟨tail, rfl, hnil, htail.not_json hnil⟩⟩⟩
      rw [hsplit]
      simpa using hnil
  | unended ls last h =>
    subst h
    have hlast := (exists_record hwhole (List.mem_append_right _ (List.mem_singleton_self last))).elim
      fun _ h => h.nonempty
    have hsplit := splitOn_unlines (fun l hl => hone l (List.mem_append_left _ hl))
      (hone last (List.mem_append_right _ (List.mem_singleton_self last)))
    refine ⟨[], .inl ⟨?_, by rw [hsplit, List.append_nil], .inl rfl⟩⟩
    rw [hsplit]
    simpa using hlast

/-- The records of a file that holds their lines. -/
theorem Holds.read_lines {raw : Bytes} (h : Holds lines (some raw)) (hwhole : List.Forall₂ Whole records lines) :
    read_lines raw = .ok (records.map readBack) := by
  rw [Watch.read_lines]
  obtain ⟨rest, ⟨hlast, hsplit, hrest⟩ | ⟨hlast, hlines, -⟩⟩ := h.splitOn hwhole
  · rw [if_pos hlast, decide_eq_true hlast, hsplit, read_whole hwhole]
    rcases hrest with rfl | ⟨tail, rfl, hne, hjson⟩
    · show Except.ok (records.map readBack ++ []) = _
      rw [List.append_nil]
    · rw [read_records, if_neg hne, hjson]
      show Except.ok (records.map readBack ++ []) = _
      rw [List.append_nil]
  · rw [if_neg (not_not.mpr hlast), hlines]
    rw [← List.append_nil lines, read_whole hwhole []]
    show Except.ok (records.map readBack ++ []) = _
    rw [List.append_nil]

/-- A file that holds the lines of some records is folded as them. -/
theorem Holds.read (h : Holds lines file) (hwhole : List.Forall₂ Whole records lines) :
    read_watch_log file = logOf records := by
  cases file with
  | none =>
    cases h with
    | missing h =>
      subst h
      cases hwhole
      rfl
  | some raw =>
    show (Watch.read_lines raw >>= _) = _
    rw [h.read_lines hwhole, Infra.ok_bind, check_whole hwhole, Infra.ok_bind, logOf]
    cases records.map readBack with
    | nil => rfl
    | cons start rest =>
      show (foldLog start rest >>= fun log => Except.ok (some log)) = (foldLog start rest).map some
      cases foldLog start rest with
      | error e => rfl
      | ok log => rfl

/-- The repair keeps the lines that were read. -/
theorem Holds.repair (h : Holds lines file) (hwhole : List.Forall₂ Whole records lines) :
    repair_tail file = file.map fun _ => unlines newline lines := by
  cases h with
  | missing h => rfl
  | ended tail htail =>
    rw [repair_tail]
    by_cases hnil : tail = []
    · subst hnil
      rw [if_pos]
      · simp
      · rw [List.append_nil]
        induction lines using List.reverseRecOn with
        | nil => exact .inl rfl
        | append_singleton ls l _ =>
          right
          rw [unlines_concat, ← List.append_assoc, List.getLast?_concat]
    · have hlast : (unlines newline lines ++ tail).getLast? ≠ none ∧
          (unlines newline lines ++ tail).getLast? ≠ some newline := by
        rw [List.getLast?_append_of_ne_nil _ hnil]
        refine ⟨by simpa using hnil, fun hsome => ?_⟩
        exact htail.one_line (List.mem_of_getLast? hsome)
      rw [if_neg (not_or.mpr hlast), lastLine_unlines htail.one_line, htail.not_json hnil,
        wholeLines_unlines htail.one_line]
      rfl
  | unended ls last h =>
    subst h
    obtain ⟨record, hrecord⟩ := exists_record hwhole (List.mem_append_right _ (List.mem_singleton_self last))
    have hlast : (unlines newline ls ++ last).getLast? ≠ none ∧
        (unlines newline ls ++ last).getLast? ≠ some newline := by
      rw [List.getLast?_append_of_ne_nil _ hrecord.nonempty]
      refine ⟨by simpa using hrecord.nonempty, fun hsome => ?_⟩
      exact hrecord.one_line (List.mem_of_getLast? hsome)
    rw [repair_tail, if_neg (not_or.mpr hlast), lastLine_unlines hrecord.one_line, hrecord.json]
    simp [unlines_concat]

/-- A beginning of a line is torn, or the whole line without its newline. -/
theorem Whole.cut (h : Whole record line) {k : Nat} (hk : k ≤ line.length) :
    Torn (line.take k) ∨ k = line.length := by
  by_cases hlen : k = line.length
  · exact .inr hlen
  · refine .inl ⟨fun hmem => h.one_line (List.mem_of_mem_take hmem), fun _ => h.torn _ (List.take_prefix k line) ?_⟩
    intro heq
    have := congrArg List.length heq
    rw [List.length_take] at this
    omega

/-- After an append that a crash may cut, the file holds the line when it landed. -/
theorem Whole.append (h : Whole record line) (k : Nat) :
    Holds (if line.length ≤ k then lines ++ [line] else lines)
      (some (unlines newline lines ++ (line ++ [newline]).take k)) := by
  split
  · next hk =>
    rcases Nat.lt_or_eq_of_le hk with hk | rfl
    · rw [List.take_of_length_le (by rw [List.length_append, List.length_singleton]; omega), ← unlines_concat]
      exact List.append_nil (unlines newline (lines ++ [line])) ▸ .ended [] torn_nil
    · rw [List.take_left']
      · exact .unended lines line rfl
      · rfl
  · next hk =>
    rw [List.take_append_of_le_length (by omega)]
    rcases h.cut (k := k) (by omega) with htorn | heq
    · exact .ended _ htorn
    · omega

end Files

end Dsl41.Watch
