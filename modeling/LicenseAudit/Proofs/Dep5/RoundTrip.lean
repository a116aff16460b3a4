import LicenseAudit.Proofs.Dep5.Draft
import LicenseAudit.Proofs.Notice.Stability

/-!
# Manifests are read back

A stanza is written as three fields and a blank line.  Reading its lines closes
one paragraph with these fields (`skim_lines`), so the lines of a document give
its paragraphs one after the other.  Comments and further blank lines leave
them as they are, and so does the choice between line ends: `parse_document`.
-/

namespace LicenseAudit

open Text

/-- The stored form of a notice has no blanks at its ends. -/
theorem Notice.isTrimmed_normalize (text : String) : IsTrimmed (normalize text).toList := by
  have hread := (isRead_parse text).1
  cases hn : parse text with
  | mk years holder =>
      rw [hn] at hread
      cases years with
      | nil =>
          rw [normalize, hn, render_nil]
          exact hread.trimmed
      | cons r rs =>
          rw [normalize, hn]
          exact isTrimmed_render hread.bounded hread.trimmed

namespace Dep5

/-- A text may be a **copyright line** of a stanza when it is its own stored
form, stands on one line, and is not the dot that stands for an empty line. -/
structure IsCopyright (line : String) : Prop where
  ne_empty : line ≠ ""
  ne_dot : line ≠ "."
  unbroken : ∀ c ∈ line.toList, isLineEnd c = false
  normal : Notice.normalize line = line

theorem IsCopyright.isValue {line : String} (h : IsCopyright line) : IsValue line := by
  have htrimmed := Notice.isTrimmed_normalize line
  rw [h.normal] at htrimmed
  refine ⟨?_, h.unbroken⟩
  rw [trimmed, trim_eq_self_iff.2 htrimmed, String.ofList_toList]

theorem isCopyright_iff {line : String} : IsCopyright line ↔
    line ≠ "" ∧ line ≠ "." ∧ IsValue line ∧ Notice.normalize line = line :=
  ⟨fun h => ⟨h.ne_empty, h.ne_dot, h.isValue, h.normal⟩,
    fun ⟨hempty, hdot, hvalue, hnormal⟩ => ⟨hempty, hdot, hvalue.unbroken, hnormal⟩⟩

instance (line : String) : Decidable (IsCopyright line) :=
  decidable_of_iff _ isCopyright_iff.symm

/-- The values of a field that starts with a value; an empty one is none. -/
def given (value : String) : List String :=
  if value = "" then [] else [value]

/-- A paragraph about some files as it is written; the first copyright line
stands beside the name of its field or **below** it. -/
structure Stanza where
  patterns : List String
  copyrights : List String
  license : String
  below : Bool
  isWord : ∀ p ∈ patterns, IsWord p
  isCopyright : ∀ c ∈ copyrights, IsCopyright c
  isLicense : IsValue license
  license_ne_empty : license ≠ ""

namespace Stanza

variable (s : Stanza)

/-- The text that lists the patterns. -/
def files : String :=
  String.ofList (wordLine s.patterns)

/-- The copyright line beside the name of the field; there may be none. -/
def beside : String :=
  if s.below then "" else s.copyrights.headD ""

/-- The copyright lines on lines of their own. -/
def others : List String :=
  if s.below then s.copyrights else s.copyrights.tail

/-- The lines of a stanza. -/
def lines : List (List Char) :=
  fieldLine "Files" s.files :: fieldLine "Copyright" s.beside ::
    (s.others.map continuationLine ++ [fieldLine "License" s.license, []])

/-- The paragraph that a stanza is. -/
def paragraph : Paragraph :=
  ⟨s.patterns.map Pattern.ofSource, s.copyrights, s.license⟩

/-- The fields of a stanza, the last first. -/
def fields : List (String × List String) :=
  [("license", [s.license]), ("copyright", s.copyrights), ("files", given s.files)]

theorem ne_empty_of_mem {c : String} (hc : c ∈ s.copyrights) : c ≠ "" :=
  (s.isCopyright c hc).ne_empty

/-- The copyright lines are the one beside the name and the others. -/
theorem given_beside_append : given s.beside ++ s.others = s.copyrights := by
  rw [given, beside, others]
  by_cases hbelow : s.below = true
  · simp [hbelow]
  · cases hcopyrights : s.copyrights with
    | nil => simp
    | cons c cs => simp [hbelow, s.ne_empty_of_mem (c := c) (by simp [hcopyrights])]

theorem isValue_files : IsValue s.files :=
  isValue_wordLine s.isWord

theorem isValue_beside : IsValue s.beside := by
  have hempty : IsValue "" := by decide
  rw [beside]
  split
  · exact hempty
  · cases hcopyrights : s.copyrights with
    | nil => exact hempty
    | cons c cs => exact (s.isCopyright c (by simp [hcopyrights])).isValue

theorem isCopyright_of_mem_others {c : String} (hc : c ∈ s.others) : IsCopyright c := by
  refine s.isCopyright c ?_
  rw [← s.given_beside_append]
  exact List.mem_append_right _ hc

/-- What the lines of a stanza are. -/
theorem map_ofChars_lines : s.lines.map Line.ofChars =
    .field "files" s.files :: .field "copyright" s.beside ::
      (s.others.map .continuation ++ [.field "license" s.license, .blank]) := by
  have hothers : (s.others.map continuationLine).map Line.ofChars =
      s.others.map .continuation := by
    rw [List.map_map]
    refine List.map_congr_left fun c hc => ?_
    have hcopyright := s.isCopyright_of_mem_others hc
    exact ofChars_continuationLine hcopyright.isValue hcopyright.ne_empty hcopyright.ne_dot
  have hfiles : IsFieldName "Files" := by decide +kernel
  have hcopyright : IsFieldName "Copyright" := by decide +kernel
  have hlicense : IsFieldName "License" := by decide +kernel
  have hblank : Line.ofChars [] = .blank := rfl
  rw [lines, List.map_cons, List.map_cons, List.map_append, hothers, List.map_cons, List.map_cons,
    List.map_nil, hblank, ofChars_fieldLine hfiles s.isValue_files,
    ofChars_fieldLine hcopyright s.isValue_beside, ofChars_fieldLine hlicense s.isLicense]
  rfl

/-- The lines of a stanza are one paragraph with its fields. -/
theorem skim_lines (closed : List Block) :
    Draft.skim ⟨closed, none⟩ (s.lines.map Line.ofChars) =
      some ⟨closed ++ [⟨0, s.fields⟩], none⟩ := by
  have hfiles : Draft.read ⟨closed, none⟩ 0 (.field "files" s.files) =
      .ok ⟨closed, some ⟨0, [("files", given s.files)]⟩⟩ := rfl
  have hcopyright (b : Block) : Draft.read ⟨closed, some b⟩ 0 (.field "copyright" s.beside) =
      .ok ⟨closed, some ⟨b.line, ("copyright", given s.beside) :: b.back⟩⟩ := rfl
  have hlicense (b : Block) : Draft.read ⟨closed, some b⟩ 0 (.field "license" s.license) =
      .ok ⟨closed, some ⟨b.line, ("license", [s.license]) :: b.back⟩⟩ := by
    simp [Draft.read, Block.start, s.license_ne_empty]
  rw [map_ofChars_lines, Draft.skim_cons, hfiles, Except.toOption, Option.bind_some,
    Draft.skim_cons, hcopyright, Except.toOption, Option.bind_some, Draft.skim_continuations,
    given_beside_append, Draft.skim_cons, hlicense, Except.toOption, Option.bind_some]
  rfl

theorem flatMap_wordsOf_files :
    (given s.files).flatMap (fun f => wordsOf f.toList) = s.patterns.map String.toList := by
  have hwords : wordsOf s.files.toList = s.patterns.map String.toList := by
    rw [files, String.toList_ofList, wordsOf_wordLine s.isWord]
  rw [given]
  split
  · next hempty =>
      rw [← hwords, hempty]
      rfl
  · rw [List.flatMap_singleton, hwords]

theorem map_normalize_copyrights :
    (s.copyrights.map Notice.normalize).filter (!·.isEmpty) = s.copyrights := by
  have hnormal : s.copyrights.map Notice.normalize = s.copyrights :=
    (List.map_congr_left fun c hc => (s.isCopyright c hc).normal).trans (List.map_id _)
  rw [hnormal, List.filter_eq_self]
  intro c hc
  simpa using s.ne_empty_of_mem hc

/-- The fields of a stanza are read as its paragraph. -/
theorem paragraph?_eq {b : Block} (h : b.back = s.fields) :
    b.paragraph? = .ok (some s.paragraph) := by
  have hfiles : b.values? "files" = some (given s.files) := by
    rw [Block.values?, h]
    rfl
  have hcopyright : b.values? "copyright" = some s.copyrights := by
    rw [Block.values?, h]
    rfl
  have hlicense : b.values? "license" = some [s.license] := by
    rw [Block.values?, h]
    rfl
  have htrimmed : trimmed ([s.license].headD "") = s.license := s.isLicense.trimmed
  have hpatterns : (s.patterns.map String.toList).map
      (fun w => Pattern.ofSource (String.ofList w)) = s.patterns.map Pattern.ofSource := by
    simp
  simp only [Block.paragraph?, hfiles, hcopyright, hlicense, htrimmed, s.license_ne_empty, if_false,
    flatMap_wordsOf_files, map_normalize_copyrights, hpatterns]
  rfl

end Stanza

/-- A manifest as it is written: a header that names a format, and stanzas. -/
structure Document where
  format : String
  stanzas : List Stanza
  isFormat : IsValue format

/-- The lines of a document. -/
def Document.lines (m : Document) : List (List Char) :=
  fieldLine "Format" m.format :: [] :: m.stanzas.flatMap Stanza.lines

/-- The lines of stanzas are one paragraph after the other. -/
theorem skim_stanzas (stanzas : List Stanza) (closed : List Block) :
    Draft.skim ⟨closed, none⟩ ((stanzas.flatMap Stanza.lines).map Line.ofChars) =
      some ⟨closed ++ stanzas.map fun s => ⟨0, s.fields⟩, none⟩ := by
  induction stanzas generalizing closed with
  | nil => simp [Draft.skim]
  | cons s stanzas ih =>
      rw [List.flatMap_cons, List.map_append, Draft.skim_append, s.skim_lines, Option.bind_some, ih,
        List.append_assoc, List.map_cons, List.singleton_append]

/-- The lines of a document are its header and its stanzas. -/
theorem Document.skim_lines (m : Document) :
    Draft.skim ⟨[], none⟩ (m.lines.map Line.ofChars) =
      some ⟨⟨0, [("format", given m.format)]⟩ ::
        m.stanzas.map fun s => ⟨0, s.fields⟩, none⟩ := by
  have hname : IsFieldName "Format" := by decide +kernel
  have hheader : Draft.skim ⟨[], none⟩ ((fieldLine "Format" m.format :: [[]]).map Line.ofChars) =
      some ⟨[⟨0, [("format", given m.format)]⟩], none⟩ := by
    rw [List.map_cons, ofChars_fieldLine hname m.isFormat]
    rfl
  have hlines : m.lines = (fieldLine "Format" m.format :: [[]]) ++ m.stanzas.flatMap Stanza.lines :=
    rfl
  rw [hlines, List.map_append, Draft.skim_append, hheader, Option.bind_some, skim_stanzas,
    List.singleton_append]

/-- Blocks with the fields of stanzas are their paragraphs. -/
theorem mapM_paragraph?_eq {blocks : List Block} {stanzas : List Stanza}
    (h : blocks.map Block.back = stanzas.map Stanza.fields) :
    blocks.mapM Block.paragraph? = .ok (stanzas.map fun s => some s.paragraph) := by
  induction stanzas generalizing blocks with
  | nil =>
      obtain rfl := List.map_eq_nil_iff.1 h
      rfl
  | cons s stanzas ih =>
      obtain ⟨b, rest, rfl, hb, hrest⟩ := List.map_eq_cons_iff.1 h
      rw [List.mapM_cons, s.paragraph?_eq hb, ih hrest]
      rfl

/-- **A manifest that is written is read back**: comments and further blank
lines among the lines of a document and either line end after each of them
leave its paragraphs as they are. -/
theorem parse_document (path : String) (m : Document) {lines : List (List Char)} {text : String}
    (hlines : Relation.ReflTransGen IsPadded m.lines lines) (htext : IsTextOf lines text.toList) :
    parse path text = .ok ⟨path, m.stanzas.map Stanza.paragraph⟩ := by
  have hskim := (Draft.skim_eq_of_padded hlines ⟨[], none⟩).trans m.skim_lines
  obtain ⟨blocks, hblocks, hback⟩ :=
    Draft.exists_blocksOf_of_skim (pieces_unixText htext) hskim
  rw [Draft.blocks, Option.toList_none, List.append_nil, List.map_cons, List.map_map] at hback
  obtain ⟨header, rest, rfl, hheader, hrest⟩ := List.map_eq_cons_iff.1 hback
  have hformat : (header.values? "format").isNone = false := by
    rw [Block.values?, hheader]
    rfl
  have hparagraphs : (m.stanzas.map fun s => some s.paragraph).filterMap id =
      m.stanzas.map Stanza.paragraph := by
    rw [List.filterMap_map]
    exact congrFun (List.filterMap_eq_map (f := Stanza.paragraph)) m.stanzas
  rw [parse, hblocks]
  simp only [bind, Except.bind, hformat, mapM_paragraph?_eq hrest, hparagraphs, if_false,
    Bool.false_eq_true]
  rfl

/-- A document with one stanza. -/
def sample : Document where
  format := "x"
  stanzas := [
    { patterns := ["src/*", "*.md"]
      copyrights := ["2020 Jane Doe", "2021 John Roe"]
      license := "MIT"
      below := false
      isWord := by decide +kernel
      isCopyright := by decide +kernel
      isLicense := by decide +kernel
      license_ne_empty := by decide }]
  isFormat := by decide +kernel

/-- Its text with two comments, a further blank line and both line ends. -/
def sampleText : String :=
  "Format: x\r\n\r\n# all\r\nFiles: src/* *.md\nCopyright: 2020 Jane Doe\n# and\n" ++
    " 2021 John Roe\nLicense: MIT\n \n"

/-- The lines of this text. -/
def sampleLines : List (List Char) :=
  ["Format: x", "", "# all", "Files: src/* *.md", "Copyright: 2020 Jane Doe", "# and",
    " 2021 John Roe", "License: MIT", " ", ""].map String.toList

theorem parse_sample :
    Relation.ReflTransGen IsPadded sample.lines sampleLines ∧
      IsTextOf sampleLines sampleText.toList ∧
      parse "dep5" sampleText = .ok ⟨"dep5", [⟨[Pattern.ofSource "src/*", Pattern.ofSource "*.md"],
        ["2020 Jane Doe", "2021 John Roe"], "MIT"⟩]⟩ := by
  have hpadded : Relation.ReflTransGen IsPadded sample.lines sampleLines := by
    have hblank : IsPadded sample.lines (sample.lines.take 6 ++ [[' '], []]) :=
      .blank (sample.lines.take 6) [] (by simp) (by simpa using by decide) (by simp)
    have hcomment : IsPadded (sample.lines.take 6 ++ [[' '], []])
        (sampleLines.take 2 ++ sampleLines.drop 3) :=
      .comment (sampleLines.take 2 ++ (sampleLines.drop 3).take 2) (sampleLines.drop 6)
        " and".toList
    have hcomment' : IsPadded (sampleLines.take 2 ++ sampleLines.drop 3) sampleLines :=
      .comment (sampleLines.take 2) (sampleLines.drop 3) " all".toList
    exact .tail (.tail (.tail .refl hblank) hcomment) hcomment'
  have htext : IsTextOf sampleLines sampleText.toList := by decide +kernel
  exact ⟨hpadded, htext, parse_document "dep5" sample hpadded htext⟩

end Dep5

end LicenseAudit
