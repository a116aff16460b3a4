import LicenseAudit.Proofs.Report
import LicenseAudit.Proofs.Scan.Survey
import LicenseAudit.Proofs.Scan.Workers
import LicenseAudit.Proofs.Tag.IgnoreRegion
import LicenseAudit.Proofs.Text.Utf8

/-!
# What the text of a report assures

The text of a report ends with a sentence about the outcome, and with the
**assurance** that every file has copyright and licensing information exactly
when the report is compliant (`assures_iff`).  Compliance asks for less than
that: a file outside the license directory needs a copyright or a license.
What is assured is true of a compliant project when its two lists of files
that lack one of them are empty as well (`assured_of_survey`), and a project
whose one file has no license is compliant all the same.
-/

namespace LicenseAudit

open Text

namespace Report

variable {r : Report} {files : List FileInfo} {inventory : Inventory}

/-- The sentence about a compliant project. -/
def assurance : String :=
  "The project is compliant: every file has copyright and licensing information."

/-- The text of a report ends with the assurance. -/
def Assures (r : Report) : Prop :=
  ∃ before, r.text = before ++ assurance

/-- The text of a report ends with its verdict. -/
theorem exists_text_eq (r : Report) : ∃ before, r.text = before ++ r.verdict := by
  have hsplit : r.problemSections ++ [r.summary, r.verdict] =
      (r.problemSections ++ [r.summary]) ++ [r.verdict] := by simp
  refine ⟨"\n\n".intercalate (r.problemSections ++ [r.summary]) ++ "\n\n", ?_⟩
  rw [text, hsplit, String.intercalate_append_of_ne_nil (by simp) (by simp),
    String.intercalate_singleton]

/-- The assurance is given exactly when the report is compliant. -/
theorem assures_iff : r.Assures ↔ r.isCompliant = true := by
  obtain ⟨before, htext⟩ := r.exists_text_eq
  constructor
  · rintro ⟨before', htext'⟩
    by_contra hflag
    -- The two sentences have different letters before the full stop.
    have hverdict : r.verdict = "The project is not compliant." := if_neg hflag
    have hends : (before' ++ assurance).toList.reverse[1]? =
        (before ++ "The project is not compliant.").toList.reverse[1]? := by
      rw [← htext', htext, hverdict]
    rw [String.toList_append, String.toList_append, List.reverse_append, List.reverse_append,
      List.getElem?_append_left (by decide), List.getElem?_append_left (by decide)] at hends
    exact absurd hends (by decide)
  · intro hflag
    have hverdict : r.verdict = assurance := if_pos hflag
    exact ⟨before, by rw [htext, hverdict]⟩

end Report

namespace Classification

variable {validate : String → Validation} {files : List FileInfo} {inventory : Inventory}
variable {readErrors : List ReadError}

/-- The files outside the license directory have both kinds of lines when no
file is listed that lacks one. -/
theorem lacking_eq_nil_iff :
    ((of validate files inventory readErrors).withoutCopyright = [] ∧
      (of validate files inventory readErrors).withoutLicenses = []) ↔
    ∀ f ∈ files, inventory.IsOutside f.path → f.fields.copyrights ≠ [] ∧ f.fields.licenses ≠ [] := by
  simp only [of, pathsWhere_eq_nil_iff, ← forall_and, Inventory.isOutside_iff]
  refine forall_congr' fun f => forall_congr' fun _ => ?_
  simp [Fields.has, Fields.lines]

end Classification

namespace Project

variable {p : Project} {vcs : Except Failure Vcs} {s : Survey} {r : Report}

/-- **What the text of a report assures**: when the scan of all covered files
ends with a report whose text assures that every file has copyright and
licensing information, every file outside the license directory has one or the
other; and all of them have both exactly when no file is listed that lacks
one. -/
theorem assured_of_survey (hs : p.survey vcs = .ok s) (hr : p.MayReport vcs .covered r)
    (hassures : r.Assures) :
    (∀ f ∈ r.files, s.inventory.IsOutside f.path →
      f.fields.copyrights ≠ [] ∨ f.fields.licenses ≠ []) ∧
    ((∀ f ∈ r.files, s.inventory.IsOutside f.path →
      f.fields.copyrights ≠ [] ∧ f.fields.licenses ≠ []) ↔
      r.findings.withoutCopyright = [] ∧ r.findings.withoutLicenses = []) := by
  obtain rfl := (mayReport_iff_of_survey hs).1 hr
  have hfiles {f : FileInfo} : f ∈ (Scan.reportOf p s .covered).files ↔
      f ∈ (Scan.outcomes p s .covered).filterMap Outcome.info? := mem_sortedOn
  have hcompliant : (Scan.reportOf p s .covered).findings.isCompliant = true :=
    Report.assures_iff.1 hassures
  obtain ⟨-, -, -, -, hinformation, -⟩ := Classification.isCompliant_iff.1 hcompliant
  simp only [hfiles]
  exact ⟨Classification.withoutInformation_eq_nil_iff.1 hinformation,
    Classification.lacking_eq_nil_iff.symm⟩

/-- The text of a file with a copyright and no license. -/
def halfwayText : List Char :=
  "SPDX-FileCopyrightText: 2020 Jane Doe\n".toList

/-- Its bytes. -/
def halfwayBytes : List UInt8 :=
  halfwayText.map fun c => c.toNat.toUInt8

/-- The files of a project with this file alone. -/
def halfwayFiles : List (String × Tree) :=
  [("a.c", .file halfwayBytes)]

/-- What is known about the file. -/
def halfwayInfo : FileInfo :=
  ⟨"a.c", ⟨["2020 Jane Doe"], [], []⟩, [⟨.header, "a.c"⟩], []⟩

theorem survey_halfway : (plain halfwayFiles).survey (.ok .none) = .ok (plainSurvey halfwayFiles) :=
  survey_plain halfwayFiles rfl

theorem files_halfway : (plainSurvey halfwayFiles).files = ⟨["a.c"], []⟩ := by
  have hfilter : (plainSurvey halfwayFiles).filter = ⟨"REUSE.toml", false, ["LICENSES"], []⟩ := rfl
  have hmet : ProjectFiles.met (plain halfwayFiles).tree "/p" (plainSurvey halfwayFiles).filter =
      [(["a.c"], halfwayBytes)] := by
    rw [ProjectFiles.met, show (plain halfwayFiles).tree.find "/p" = _ from
      Tree.find_withProject halfwayFiles]
    decide
  rw [show (plainSurvey halfwayFiles).files =
    .of (plain halfwayFiles).tree "/p" (plainSurvey halfwayFiles).filter from rfl,
    ProjectFiles.of, hmet, hfilter]
  decide +kernel

theorem extract_halfway (catalog : Catalog) :
    Extraction.ofText catalog (String.ofList halfwayText) = ⟨⟨["2020 Jane Doe"], [], []⟩, []⟩ := by
  have hfindings : Tag.findings (String.ofList halfwayText) = [.copyright "2020 Jane Doe"] := by
    rw [Tag.findings, String.toList_ofList,
      Tag.visible_of_none (by decide) (by decide)]
    decide +kernel
  rw [Extraction.ofText, hfindings]
  rfl

theorem speaker_halfway : Collection.speaker (plain halfwayFiles).tree "/p" "a.c" 4096 =
    .ok (.header, "a.c", some (String.ofList halfwayText)) := by
  have hplace : Path.join "/p" "a.c" = "/p/a.c" := by decide
  have hfile : (plain halfwayFiles).tree.find "/p/a.c" = .ok (.file halfwayBytes) :=
    Tree.find_entry (show Tree.GoesBy "/p/a.c" ["p", "a.c"] by decide) rfl
  have hsidecar : (plain halfwayFiles).tree.find ("/p/a.c" ++ Collection.sidecarEnding) =
      .error .missing :=
    Tree.find_absent (show Tree.GoesBy _ ["p", "a.c.license"] by decide) rfl
  have htext : Collection.textOf? (some 4096) halfwayBytes = some (String.ofList halfwayText) := by
    have hlimited : Collection.limited (some 4096) halfwayBytes = halfwayBytes := rfl
    have hdecode : Utf8.decode halfwayBytes = halfwayText := Utf8.decode_of_ascii (by decide)
    rw [Collection.textOf?, hlimited, hdecode]
    decide
  rw [Collection.speaker_of_find hplace hfile hsidecar, htext]

/-- The file has a copyright and no license. -/
theorem outcomeAt_halfway :
    (Sources.of (plain halfwayFiles) []).outcomeAt "a.c" = .known halfwayInfo := by
  have hplace : Path.join (plain halfwayFiles).root (plain halfwayFiles).config.dep5Path =
      "/p/.reuse/dep5" := by decide
  have hholds : (plain halfwayFiles).tree.holds "/p/.reuse/dep5" = false :=
    Tree.holds_of_missing (Tree.find_absent
      (show Tree.GoesBy "/p/.reuse/dep5" ["p", ".reuse", "dep5"] by decide) rfl)
  have hdep5 : (plain halfwayFiles).dep5? = none := by
    simp only [dep5?, hplace, hholds]
    rfl
  have hspeaker : Collection.speaker (plain halfwayFiles).tree (plain halfwayFiles).root "a.c"
      (plain halfwayFiles).config.headerBytes =
        .ok (.header, "a.c", some (String.ofList halfwayText)) := speaker_halfway
  simp only [Sources.of, hdep5, Sources.outcomeAt, Sources.outcome, Sources.inform, collect,
    hspeaker, extract_halfway, Option.map_some, Option.getD_some, bind, Except.bind]
  decide +kernel

/-- The report on the project has the file, and is compliant. -/
theorem reportOf_halfway :
    let r := Scan.reportOf (plain halfwayFiles) (plainSurvey halfwayFiles) .covered
    r.files = [halfwayInfo] ∧ r.isCompliant = true := by
  have houtcomes : Scan.outcomes (plain halfwayFiles) (plainSurvey halfwayFiles) .covered =
      [.known halfwayInfo] := by
    rw [Scan.outcomes, Selection.targets, files_halfway, List.map_singleton, outcomeAt_halfway]
  simp only [Scan.reportOf, houtcomes]
  decide +kernel

/-- The text of the report on the project assures more than is true. -/
theorem assured_halfway :
    (plain halfwayFiles).survey (.ok .none) = .ok (plainSurvey halfwayFiles) ∧
      ∃ r, (lintProject (plain halfwayFiles) (.ok .none)).map Scan.report = .ok r ∧
        (plain halfwayFiles).MayReport (.ok .none) .covered r ∧ r.Assures ∧
        ∃ f ∈ r.files, (plainSurvey halfwayFiles).inventory.IsOutside f.path ∧
          f.fields.licenses = [] := by
  obtain ⟨hfiles, hflag⟩ := reportOf_halfway
  refine ⟨survey_halfway, _, report_scan survey_halfway .covered,
    (mayReport_iff_of_survey survey_halfway).2 rfl, Report.assures_iff.2 hflag, halfwayInfo, ?_,
    Inventory.isOutside_iff.2 (by decide), rfl⟩
  rw [hfiles]
  exact List.mem_singleton_self _

/-- Its file has a copyright, and is listed for its lack of a license. -/
theorem assured_of_survey_halfway :
    ∃ r, (plain halfwayFiles).survey (.ok .none) = .ok (plainSurvey halfwayFiles) ∧
      (plain halfwayFiles).MayReport (.ok .none) .covered r ∧ r.Assures ∧
      (∀ f ∈ r.files, (plainSurvey halfwayFiles).inventory.IsOutside f.path →
        f.fields.copyrights ≠ [] ∨ f.fields.licenses ≠ []) ∧
      ((∀ f ∈ r.files, (plainSurvey halfwayFiles).inventory.IsOutside f.path →
        f.fields.copyrights ≠ [] ∧ f.fields.licenses ≠ []) ↔
        r.findings.withoutCopyright = [] ∧ r.findings.withoutLicenses = []) := by
  have hr : (plain halfwayFiles).MayReport (.ok .none) .covered _ :=
    (mayReport_iff_of_survey survey_halfway).2 rfl
  have hassures := Report.assures_iff.2 reportOf_halfway.2
  exact ⟨_, survey_halfway, hr, hassures, assured_of_survey survey_halfway hr hassures⟩

end Project

end LicenseAudit
