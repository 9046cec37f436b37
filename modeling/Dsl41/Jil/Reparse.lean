import Dsl41.Jil.CanonicalText

/-!
# Reading the canonical text back

The canonical text of a clean file is accepted, has the content of the file, and is written again
as it stands where no comment is moved from the start of a subject.
-/

namespace Dsl41.Jil

open Dsl41.Infra

variable {text : List Char} {jf : JilFile} {stmt g : JilStatement} {pre : List Line}

/-! ## The content -/

/-- What the canonical mode keeps of an attribute. -/
def content (a : RawAttr) : Line × Block := (a.key, canonicalValue a)

/-- The attributes in source order, the inline job type first. -/
def sourceAttrs (stmt : JilStatement) : List RawAttr := (inlineAttr stmt).toList ++ stmt.attrs

/-- A statement has the content of another: its attributes are the other's, those of one key in the
same order. -/
structure SameContent (stmt g : JilStatement) : Prop where
  subcommand : g.subcommand = stmt.subcommand
  subject : rstrip g.subject = contentSubject stmt
  dateLines : g.dateLines = stmt.dateLines.map strip
  inline : g.jobTypeInline = none
  attrs : (g.attrs.map content).Perm ((sourceAttrs stmt).map content)
  order : ∀ key, (g.attrs.filter (lower ·.key = key)).map content =
    ((sourceAttrs stmt).filter (lower ·.key = key)).map content

theorem CanonicalStatement.map_content {attrs gs : List RawAttr}
    (h : List.Forall₂ (fun a b => b.key = a.key ∧ b.rawValue = canonicalValue a ∧
      canonicalValue b = b.rawValue) attrs gs) (p : Line → Bool) :
    (gs.filter (p ·.key)).map content = (attrs.filter (p ·.key)).map content := by
  induction h with
  | nil => rfl
  | @cons a b attrs gs hab _ ih =>
    obtain ⟨hkey, hvalue, htrimmed⟩ := hab
    have hcontent : content b = content a := by rw [content, content, hkey, htrimmed, hvalue]
    rw [List.filter_cons, List.filter_cons, hkey]
    split
    · rw [List.map_cons, List.map_cons, hcontent, ih]
    · exact ih

theorem CanonicalStatement.sameContent (h : CanonicalStatement stmt g pre) : SameContent stmt g := by
  refine ⟨h.subcommand, h.subject, h.dateLines, h.inline, ?_, fun key => ?_⟩
  · have hall := map_content h.attrs fun _ => true
    rw [List.filter_true, List.filter_true] at hall
    rw [hall]
    exact canonicalSort_perm.map content
  · rw [map_content h.attrs fun k => lower k = key]
    exact congrArg (List.map content) (canonicalSort_filter key)

/-- The canonical text of a clean file is accepted, and its statements have the file's content. -/
theorem renderCanonical_content (h : parse text = .ok jf)
    (hclean : ∀ stmt ∈ jf.statements, CleanStatement stmt) :
    ∃ g, parse (renderCanonical jf) = .ok g ∧
      List.Forall₂ SameContent jf.statements g.statements := by
  obtain ⟨g, hparse, hg⟩ := parse_renderCanonical h hclean
  exact ⟨g, hparse, hg.statements.imp fun _ _ ⟨_, hstmt⟩ => hstmt.sameContent⟩

theorem sampleFile_clean : ∀ stmt ∈ sampleFile.statements, CleanStatement stmt ∧ StableSubject stmt := by
  intro stmt hs
  obtain rfl := List.mem_singleton.mp hs
  refine ⟨⟨nofun, fun h => absurd rfl h, ?_, ?_⟩, ?_⟩
  · intro a ha
    obtain rfl := List.mem_singleton.mp ha
    rintro l ⟨⟩
    decide
  · rintro jobType ⟨⟩
    decide
  · exact nofun

theorem renderCanonical_content_sample : parse sampleText = .ok sampleFile ∧
    ∃ g, parse (renderCanonical sampleFile) = .ok g ∧
      List.Forall₂ SameContent sampleFile.statements g.statements :=
  ⟨parse_sampleText, renderCanonical_content parse_sampleText fun stmt hs =>
    (sampleFile_clean stmt hs).1⟩

/-- A one-line form whose subject ends in a closed comment. -/
def oneLineFile (subject : String) : JilFile where
  statements := [{
    subcommand := "insert_job".toList, subject := subject.toList, jobTypeInline := some ['c']
    attrs := [], inlineGap := [' '] }]
  finalNewline := false

/-- The statement the comment is moved in. -/
def movedFile (subject indent : String) : JilFile where
  statements := [{
    subcommand := "insert_job".toList, subject := subject.toList
    attrs := [{ key := "job_type".toList, rawValue := ⟨['c'], []⟩ }]
    comments := [{ text := ⟨"/* b */".toList, []⟩, attachment := .trailing
                   indent := indent.toList }]
    sep := if subject = "" then [' ', ' '] else [' '] }]

/-- A closed comment that ends a one-line form's subject leaves the subject. -/
theorem renderCanonical_subject_moved :
    parse "insert_job: a /* b */ job_type: c".toList = .ok (oneLineFile "a /* b */") ∧
      parse (renderCanonical (oneLineFile "a /* b */")) = .ok (movedFile "a" " ") ∧
      (movedFile "a" " ").statements.map (rstrip ·.subject) ≠
        (oneLineFile "a /* b */").statements.map (rstrip ·.subject) :=
  ⟨by decide +kernel, by decide +kernel, by decide +kernel⟩

/-! ## The fixpoint -/

/-- The canonical text of a clean file, no comment moved from the start of a subject, is written
again as it stands. -/
theorem renderCanonical_fixpoint (h : parse text = .ok jf)
    (hclean : ∀ stmt ∈ jf.statements, CleanStatement stmt ∧ StableSubject stmt) :
    ∃ g, parse (renderCanonical jf) = .ok g ∧ renderCanonical g = renderCanonical jf := by
  obtain ⟨g, hparse, hg⟩ := parse_renderCanonical h fun stmt hs => (hclean stmt hs).1
  refine ⟨g, hparse, ?_⟩
  rw [renderCanonical, renderCanonical, hg.again fun stmt hs => (hclean stmt hs).2]

theorem renderCanonical_fixpoint_sample : parse sampleText = .ok sampleFile ∧
    ∃ g, parse (renderCanonical sampleFile) = .ok g ∧
      renderCanonical g = renderCanonical sampleFile :=
  ⟨parse_sampleText, renderCanonical_fixpoint parse_sampleText sampleFile_clean⟩

/-- A comment that is moved from the start of a subject takes two spaces first and one then. -/
theorem renderCanonical_not_fixpoint :
    parse "insert_job: /* b */ job_type: c".toList = .ok (oneLineFile "/* b */") ∧
      parse (renderCanonical (oneLineFile "/* b */")) = .ok (movedFile "" "") ∧
      renderCanonical (movedFile "" "") ≠ renderCanonical (oneLineFile "/* b */") :=
  ⟨by decide +kernel, by decide +kernel, by decide +kernel⟩

end Dsl41.Jil
