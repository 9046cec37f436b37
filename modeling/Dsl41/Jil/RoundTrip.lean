import Dsl41.Jil.Preserve

/-!
# The round trip

`renderPreserve_parse`: what is parsed is written back character for character. The text splits
into lines at its newlines, the scanner takes each line once, and the lines joined are the text.
-/

namespace Dsl41.Jil

open Dsl41.Infra

variable {text : List Char} {style : NewlineStyle} {s : ScanState} {jf : JilFile}

theorem NewlineStyle.chars_ne_nil : style.chars ≠ [] := by
  cases style with
  | lf => exact nofun
  | crlf => exact nofun

theorem NewlineStyle.chars_head : ∀ c ∈ style.chars.head?, c ∉ style.chars.tail := by
  cases style with
  | lf =>
    rintro c ⟨⟩
    exact List.not_mem_nil
  | crlf =>
    rintro c ⟨⟩
    simp [NewlineStyle.chars]

/-- The lines joined, with the final newline where the text has one. -/
theorem join_linesOf (style : NewlineStyle) (h : text ≠ []) :
    linesOf style text ≠ [] ∧
      join style.chars (linesOf style text) ++
        (if style.chars.isSuffixOf text then style.chars else []) = text := by
  rw [linesOf, if_neg h]
  split
  · next hsuffix =>
    obtain ⟨l, rfl⟩ := List.isSuffixOf_iff_suffix.mp hsuffix
    have hsplit := split_append_sep (l := l) style.chars_ne_nil style.chars_head
    rw [hsplit, List.dropLast_concat]
    exact ⟨splitFrom_ne_nil, by rw [join_split style.chars_ne_nil]⟩
  · exact ⟨splitFrom_ne_nil, by rw [join_split style.chars_ne_nil, List.append_nil]⟩

theorem parse_eq_ok : parse text = .ok jf ↔
    ∃ style s, detectNewline text = .ok style ∧ scanLines {} 0 0 (linesOf style text) = .ok s ∧
      jf = s.file style (text ≠ [] && style.chars.isSuffixOf text) := by
  rw [parse, bind_eq_ok]
  refine exists_congr fun style => ⟨fun ⟨hstyle, h⟩ => ?_, fun ⟨s, hstyle, hs, hjf⟩ => ?_⟩
  · obtain ⟨s, hs, h⟩ := bind_eq_ok.mp h
    cases h
    exact ⟨s, hstyle, hs, rfl⟩
  · exact ⟨hstyle, bind_eq_ok.mpr ⟨s, hs, hjf ▸ rfl⟩⟩

theorem scanInv_nil : ScanInv {} := ⟨nofun, nofun, fun _ => rfl, nofun, nofun⟩

theorem preserveLines_file {final : Bool} : preserveLines (s.file style final) = s.lines := by
  simp only [preserveLines, ScanState.file, ScanState.lines, List.flatMap_map]
  rfl

/-- The elements of a parsed file are as the grammar says. -/
theorem ScanInv.scannedFile {final : Bool} (h : ScanInv s) : ScannedFile (s.file style final) where
  statements := by
    intro stmt hs
    obtain hs | hs := List.mem_append.mp hs
    · exact h.done stmt hs
    · obtain ⟨cont, hcont, -⟩ := h.cur stmt (Option.mem_toList.mp hs)
      exact ⟨cont, hcont⟩
  trailingComments := by
    intro c hc
    obtain ⟨c', hc', rfl⟩ := List.mem_map.mp hc
    have hown := h.pendC c' hc'
    refine ⟨?_, rfl⟩
    have hleading : { c' with attachment := .leading } = c' := by rw [← hown.leading]
    rwa [hleading]
  eofBlankLines := h.pendB

theorem scannedFile_of_parse (h : parse text = .ok jf) : ScannedFile jf := by
  obtain ⟨style, s, -, hs, rfl⟩ := parse_eq_ok.mp h
  exact (scanLines_sound scanInv_nil hs (Nat.zero_le _)).1.scannedFile

/-- The preserve mode writes a parsed text back character for character. -/
theorem renderPreserve_parse (h : parse text = .ok jf) : renderPreserve jf = text := by
  obtain ⟨style, s, -, hs, rfl⟩ := parse_eq_ok.mp h
  obtain ⟨-, hlines⟩ := scanLines_sound scanInv_nil hs (Nat.zero_le _)
  have hpreserve : preserveLines (s.file style (text ≠ [] && style.chars.isSuffixOf text)) =
      linesOf style text := by
    rw [preserveLines_file, hlines]
    rfl
  rw [renderPreserve, hpreserve]
  by_cases htext : text = []
  · subst htext
    rfl
  · obtain ⟨hne, hjoin⟩ := join_linesOf style htext
    rw [if_neg hne]
    simpa [ScanState.file, htext] using hjoin

/-- A text with an inline pair, a continuation and a trailing comment, and no final newline. -/
def sampleText : List Char :=
  "# jobs\ninsert_job: a  job_type: c /* x */\n  start_times: \"10:00,\n\t11:00\" /* y\nz */".toList

def sampleFile : JilFile where
  statements := [{
    subcommand := "insert_job".toList, subject := "a".toList, jobTypeInline := some "c".toList
    inlineGap := "  ".toList
    comments := [
      { text := ⟨"# jobs".toList, []⟩, attachment := .leading },
      { text := ⟨"/* x */".toList, []⟩, attachment := .trailing, indent := " ".toList }]
    attrs := [{
      key := "start_times".toList, indent := "  ".toList
      rawValue := ⟨"\"10:00,".toList, ["\t11:00\"".toList]⟩
      comments := [{ text := ⟨"/* y".toList, ["z */".toList]⟩, attachment := .trailing
                     trailingBlock := true, indent := " ".toList }] }] }]
  finalNewline := false

theorem parse_sampleText : parse sampleText = .ok sampleFile := by decide +kernel

theorem renderPreserve_parse_sample :
    parse sampleText = .ok sampleFile ∧ renderPreserve sampleFile = sampleText :=
  ⟨parse_sampleText, renderPreserve_parse parse_sampleText⟩

end Dsl41.Jil
