import LicenseAudit.Proofs.Scan.Outcome
import LicenseAudit.Proofs.Scan.Survey

/-!
# Scanning some of the files

A scan of some covered files of a project finds about them what the scan of
the whole project does.  `Report.IsRestriction` says how the two reports go
together: most lists are those of the whole report as far as they are about
the files, each missing license keeps of its files only these, and nothing is
said about the license directory.

It comes down to which values are listed.  The files that are known, the read
errors and the references of a part are those of the whole that have a path of
the part, and a listing is determined by its values.
-/

namespace LicenseAudit

open Text

/-- A missing license with those of its files that are at some paths. -/
def MissingLicense.cut (paths : List String) (m : MissingLicense) : MissingLicense :=
  { m with files := m.files.filter (paths.contains ·) }

/-- What is found about some files is the **restriction** of what is found to
their paths when it agrees with it about them, a missing license keeping
these of its files and being left out without any, and when nothing is found
in the license directory. -/
structure Classification.IsRestriction (part : Classification) (paths : List String)
    (whole : Classification) : Prop where
  readErrors : part.readErrors = whole.readErrors.filter (paths.contains ·.path)
  unparsable : part.unparsable = whole.unparsable.filter (paths.contains ·.path)
  withoutInformation :
    part.withoutInformation = whole.withoutInformation.filter (paths.contains ·)
  withoutCopyright : part.withoutCopyright = whole.withoutCopyright.filter (paths.contains ·)
  withoutLicenses : part.withoutLicenses = whole.withoutLicenses.filter (paths.contains ·)
  missingLicenses : part.missingLicenses =
    (whole.missingLicenses.map (·.cut paths)).filter (!·.files.isEmpty)
  badLicenses : part.badLicenses = []
  deprecatedLicenses : part.deprecatedLicenses = []
  licensesWithoutExtension : part.licensesWithoutExtension = []
  unusedLicenses : part.unusedLicenses = []

namespace Classification

variable {validate : String → Validation} {inventory : Inventory} {paths : List String}
variable {files part : List FileInfo}

section Part

variable (hpart : ∀ file, file ∈ part ↔ file ∈ files ∧ paths.contains file.path = true)
include hpart

/-- The references of some of the files are the references under their
paths. -/
theorem mem_references_part {reference : Reference} :
    reference ∈ part.flatMap (referencesOf validate) ↔
      reference ∈ files.flatMap (referencesOf validate) ∧
        paths.contains reference.2 = true := by
  simp only [List.mem_flatMap]
  constructor
  · rintro ⟨file, hfile, hreference⟩
    obtain ⟨hfile, hpath⟩ := (hpart file).1 hfile
    rw [path_of_mem_referencesOf hreference]
    exact ⟨⟨file, hfile, hreference⟩, hpath⟩
  · rintro ⟨⟨file, hfile, hreference⟩, hpath⟩
    rw [path_of_mem_referencesOf hreference] at hpath
    exact ⟨file, (hpart file).2 ⟨hfile, hpath⟩, hreference⟩

theorem pathsWhere_part (test : Fields → Bool) :
    pathsWhere inventory part test =
      (pathsWhere inventory files test).filter (paths.contains ·) := by
  refine sortedUnique_eq_filter fun path => ?_
  simp only [List.mem_map, List.mem_filter, hpart]
  constructor
  · rintro ⟨file, ⟨⟨hfile, hpath⟩, htest⟩, rfl⟩
    exact ⟨⟨file, ⟨hfile, htest⟩, rfl⟩, hpath⟩
  · rintro ⟨⟨file, ⟨hfile, htest⟩, rfl⟩, hpath⟩
    exact ⟨file, ⟨⟨hfile, hpath⟩, htest⟩, rfl⟩

theorem usersOf_part (id : String) :
    usersOf validate part id = (usersOf validate files id).filter (paths.contains ·) := by
  refine sortedUnique_eq_filter fun path => ?_
  simp only [List.mem_map, List.mem_filter, mem_references_part hpart]
  constructor
  · rintro ⟨reference, ⟨⟨hreference, hpath⟩, hid⟩, rfl⟩
    exact ⟨⟨reference, ⟨hreference, hid⟩, rfl⟩, hpath⟩
  · rintro ⟨⟨reference, ⟨hreference, hid⟩, rfl⟩, hpath⟩
    exact ⟨reference, ⟨⟨hreference, hpath⟩, hid⟩, rfl⟩

/-- An identifier is used in some of the files when one of them refers to
it. -/
theorem idsUsedIn_part :
    idsUsedIn validate part = (idsUsedIn validate files).filter fun id =>
      !((usersOf validate files id).filter (paths.contains ·)).isEmpty := by
  refine sortedUnique_eq_filter fun id => ?_
  simp only [← usersOf_part hpart]
  simp only [usersOf, Bool.not_eq_true', List.isEmpty_eq_false_iff, ne_eq, sortedUnique_eq_nil_iff,
    List.map_eq_nil_iff, List.filter_eq_nil_iff, not_forall,
    List.mem_map, mem_references_part hpart]
  constructor
  · rintro ⟨reference, ⟨hreference, hpath⟩, rfl⟩
    exact ⟨⟨reference, hreference, rfl⟩, reference, ⟨hreference, hpath⟩, by simp⟩
  · rintro ⟨-, reference, hreference, hid⟩
    exact ⟨reference, hreference, by simpa using hid⟩

/-- What is missing keeps of its files those of the part, and is missing there
while it has any. -/
theorem missingLicenses_part (readErrors readErrors' : List ReadError) :
    (of validate part inventory readErrors').missingLicenses =
      ((of validate files inventory readErrors).missingLicenses.map (·.cut paths)).filter
        (!·.files.isEmpty) := by
  simp only [missingLicenses_of, usersOf_part hpart, idsUsedIn_part hpart, List.map_map,
    List.filter_map, List.filter_filter]
  congr 1
  refine List.filter_congr fun id _ => ?_
  simp [MissingLicense.cut, Bool.and_comm]

theorem unparsable_part (hfiles : (files.map FileInfo.path).Nodup)
    (hnodup : (part.map FileInfo.path).Nodup) (readErrors readErrors' : List ReadError) :
    (of validate part inventory readErrors').unparsable =
      (of validate files inventory readErrors).unparsable.filter (paths.contains ·.path) := by
  refine sortedOn_eq_filter (nodup_path_broken hfiles) (nodup_path_broken hnodup) fun u => ?_
  simp only [List.mem_filter, List.mem_map, hpart]
  constructor
  · rintro ⟨⟨file, ⟨hfile, hpath⟩, rfl⟩, hu⟩
    exact ⟨⟨⟨file, hfile, rfl⟩, hu⟩, hpath⟩
  · rintro ⟨⟨⟨file, hfile, rfl⟩, hu⟩, hpath⟩
    exact ⟨⟨file, ⟨hfile, hpath⟩, rfl⟩, hu⟩

/-- The classification of some of the files is a restriction as far as it does
not ask about the license directory. -/
theorem isRestriction_of {readErrors readErrors' : List ReadError}
    (hfiles : (files.map FileInfo.path).Nodup) (hnodup : (part.map FileInfo.path).Nodup)
    (herrors : (readErrors.map ReadError.path).Nodup)
    (hnodup' : (readErrors'.map ReadError.path).Nodup)
    (hpart' : ∀ e, e ∈ readErrors' ↔ e ∈ readErrors ∧ paths.contains e.path = true) :
    (of validate part inventory readErrors').withoutInventory.IsRestriction paths
      (of validate files inventory readErrors) where
  readErrors := sortedOn_eq_filter herrors hnodup' hpart'
  unparsable := unparsable_part hpart hfiles hnodup readErrors readErrors'
  withoutInformation := pathsWhere_part hpart fun f => !f.has .copyrights && !f.has .licenses
  withoutCopyright := pathsWhere_part hpart fun f => !f.has .copyrights
  withoutLicenses := pathsWhere_part hpart fun f => !f.has .licenses
  missingLicenses := missingLicenses_part hpart readErrors readErrors'
  badLicenses := rfl
  deprecatedLicenses := rfl
  licensesWithoutExtension := rfl
  unusedLicenses := rfl

end Part

end Classification

/-- A report on some files is the **restriction** of a report to their paths
when its files and findings are. -/
structure Report.IsRestriction (part : Report) (paths : List String) (whole : Report) : Prop where
  files : part.files = whole.files.filter (paths.contains ·.path)
  findings : part.findings.IsRestriction paths whole.findings

namespace Scan

variable {p : Project} {s : Survey} {paths : List String}

/-- The targets of a scan of covered files are these files, each once. -/
theorem mem_targets_only {path : String}
    (hpaths : ∀ path ∈ paths, s.filter.isExcluded path = false) :
    path ∈ (Selection.only paths).targets s ↔ path ∈ paths := by
  simp only [Selection.targets, List.mem_filter, List.mem_eraseDups, Bool.not_eq_true']
  exact and_iff_left_of_imp (hpaths path)

/-- The report on some covered files is the restriction of the report on
all. -/
theorem isRestriction_reportOf (hcovered : s.files.covered.Nodup)
    (hpaths : ∀ path ∈ paths, path ∈ s.files.covered ∧ s.filter.isExcluded path = false) :
    (reportOf p s (.only paths)).IsRestriction paths (reportOf p s .covered) := by
  have htargets {path : String} : path ∈ (Selection.only paths).targets s ↔
      path ∈ Selection.covered.targets s ∧ paths.contains path = true := by
    rw [mem_targets_only fun path h => (hpaths path h).2, List.contains_iff_mem]
    exact (and_iff_right_of_imp fun h => (hpaths path h).1).symm
  have hnodup : ((Selection.only paths).targets s).Nodup := (nodup_eraseDups paths).filter _
  have hmem {α : Type} {part : Outcome → Option α} {key : α → String}
      (h : Outcome.IsPart part key) (a : α) :
      a ∈ (outcomes p s (.only paths)).filterMap part ↔
        a ∈ (outcomes p s .covered).filterMap part ∧ paths.contains (key a) = true := by
    rw [outcomes, outcomes, Sources.mem_part h, Sources.mem_part h, htargets, and_right_comm]
  have hkeys {targets : List String} (htargets : targets.Nodup) {α : Type}
      {part : Outcome → Option α} {key : α → String} (h : Outcome.IsPart part key) :=
    Sources.nodup_part (s := .of p s.files.manifests) h htargets
  have hfiles := hmem Outcome.isPart_info
  exact {
    files := sortedOn_eq_filter (hkeys hcovered Outcome.isPart_info)
      (hkeys hnodup Outcome.isPart_info) hfiles
    findings := Classification.isRestriction_of hfiles (hkeys hcovered Outcome.isPart_info)
      (hkeys hnodup Outcome.isPart_info) (hkeys hcovered Outcome.isPart_readError)
      (hkeys hnodup Outcome.isPart_readError) (hmem Outcome.isPart_readError) }

end Scan

/-- **Scanning some covered files restricts the report**: it agrees with the
report on the whole project about these files, however often they are
named. -/
theorem lintFiles_isRestriction {p : Project} {vcs : Except Failure Vcs} {s : Survey}
    {paths : List String} (ht : p.tree.IsProper) (hs : p.survey vcs = .ok s)
    (hpaths : ∀ path ∈ paths, path ∈ s.files.covered) :
    ∃ whole part, (lintProject p vcs).map Scan.report = .ok whole ∧
      (lintFiles p vcs paths).map Scan.report = .ok part ∧ part.IsRestriction paths whole := by
  obtain ⟨⟨entries, hroot⟩, -, -, hfiles⟩ := Project.survey_eq_ok_iff.1 hs
  have hcovered : s.files.covered.Nodup := hfiles ▸ ProjectFiles.nodup_covered ht hroot s.filter
  have hkept : ∀ path ∈ s.files.covered, s.filter.isExcluded path = false := by
    rw [hfiles]
    exact fun path h => ProjectFiles.isExcluded_of_mem_covered h
  refine ⟨Scan.reportOf p s .covered, Scan.reportOf p s (.only paths), ?_, ?_,
    Scan.isRestriction_reportOf hcovered fun path h => ⟨hpaths path h, hkept path (hpaths path h)⟩⟩
  · exact Project.report_scan hs .covered
  · exact Project.report_scan hs (.only paths)

/-- Of a project with two files one is scanned. -/
theorem lintFiles_isRestriction_plain :
    let files : List (String × Tree) := [("a.c", .file [120, 10]), ("b.c", .file [121, 10])]
    let p := Project.plain files
    p.tree.IsProper ∧ p.survey (.ok .none) = .ok (Project.plainSurvey files) ∧
      (∀ path ∈ ["b.c", "b.c"], path ∈ (Project.plainSurvey files).files.covered) ∧
      ∃ whole part, (lintProject p (.ok .none)).map Scan.report = .ok whole ∧
        (lintFiles p (.ok .none) ["b.c", "b.c"]).map Scan.report = .ok part ∧
        part.IsRestriction ["b.c", "b.c"] whole := by
  intro files p
  have ht : p.tree.IsProper := by decide +kernel
  have hs : p.survey (.ok .none) = .ok (Project.plainSurvey files) := Project.survey_plain files rfl
  have hfile : p.tree.HasFile "/p" "b.c" [121, 10] := 
    Tree.hasFile_withProject (show split '/' "b.c" = ["b.c"] by decide +kernel) rfl
  have hcovered : "b.c" ∈ (Project.plainSurvey files).files.covered :=
    (ProjectFiles.mem_covered_iff ht (Tree.find_withProject files)).2
      ⟨_, hfile, by decide, by decide +kernel, by decide +kernel⟩
  have hpaths : ∀ path ∈ ["b.c", "b.c"], path ∈ (Project.plainSurvey files).files.covered := by
    simpa using hcovered
  exact ⟨ht, hs, hpaths, lintFiles_isRestriction ht hs hpaths⟩

end LicenseAudit
