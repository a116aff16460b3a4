import LicenseAudit.Proofs.Report
import LicenseAudit.Proofs.Scan.Workers

/-!
# The verdict of a scan

The report of a scan is made of the classification of its files, as far as
the selection allows one.  So its flag, its lines and its JSON tell one
verdict, and each line is about a target that was read, a target that could
not be read, or a file of the license directory (`verdict_of_survey`).
-/

namespace LicenseAudit

open Text

variable {p : Project} {vcs : Except Failure Vcs} {s : Survey} {selection : Selection}

namespace Scan

/-- The findings of a scan are about what came of its targets. -/
theorem isAbout_reportOf (p : Project) (s : Survey) (selection : Selection) :
    (reportOf p s selection).findings.IsAbout ((outcomes p s selection).filterMap Outcome.info?)
      s.inventory ((outcomes p s selection).filterMap Outcome.readError?) := by
  cases selection with
  | covered => exact Classification.isAbout_of
  | only paths => exact Classification.isAbout_of.withoutInventory

theorem isUnanimous_reportOf (p : Project) (s : Survey) (selection : Selection) :
    (reportOf p s selection).IsUnanimous :=
  Report.isUnanimous (isAbout_reportOf p s selection) rfl

/-- The files of a report are targets. -/
theorem path_mem_targets {info : FileInfo}
    (h : info ∈ (outcomes p s selection).filterMap Outcome.info?) :
    info.path ∈ selection.targets s :=
  ((Sources.mem_part Outcome.isPart_info).1 h).1

end Scan

/-- What a line of a report is about: a target of the scan that the report has
information on, a file that could not be read, or a license text in the
license directory. -/
inductive Report.ProblemLine.IsPlaced (p : Project) (s : Survey) (selection : Selection)
    (r : Report) (line : ProblemLine) : Prop where
  | target (info : FileInfo) (listed : info ∈ r.files) (path_eq : info.path = line.path)
      (covered : line.path ∈ selection.targets s)
  | unread (e : ReadError) (listed : e ∈ r.findings.readErrors) (path_eq : e.path = line.path)
  | stored (name : String)
      (isText : Inventory.IsText p.tree (Path.resolve p.root p.config.licenseDirectory) name)
      (path_eq : s.inventory.directory ++ "/" ++ name = line.path)

/-- Every line of the report of a scan has its place. -/
theorem Scan.isPlaced_of_mem_problemLines (hs : p.survey vcs = .ok s) (selection : Selection)
    {line : Report.ProblemLine} (hline : line ∈ (reportOf p s selection).problemLines) :
    line.IsPlaced p s selection (reportOf p s selection) := by
  obtain ⟨-, -, hscan, -⟩ := Project.survey_eq_ok_iff.1 hs
  rcases Report.path_of_mem_problemLines (isAbout_reportOf p s selection) rfl hline with
    ⟨info, hinfo, hpath⟩ | ⟨e, he, hpath⟩ | ⟨record, hrecord, hpath⟩
  · exact .target info (mem_sortedOn.2 hinfo) hpath (hpath ▸ path_mem_targets hinfo)
  · exact .unread e he hpath
  · obtain ⟨name, hname, hdescribed⟩ := (Inventory.mem_records_iff hscan).1 hrecord
    rw [hdescribed, Catalog.path_describe] at hpath
    exact .stored name hname hpath

namespace Project

/-- **A scan tells one verdict**: the scan of a surveyed project, whether of all
its covered files or of the given ones, ends with a report.  Of every report
that it may end with the flag, the lines and the JSON agree, and each line is
about a covered file, a file that could not be read or a stored license
text. -/
theorem verdict_of_survey (hs : p.survey vcs = .ok s) (selection : Selection) :
    (∃ r, (p.scan vcs selection).map Scan.report = .ok r ∧ p.MayReport vcs selection r) ∧
      ∀ r, p.MayReport vcs selection r →
        r.IsUnanimous ∧ ∀ line ∈ r.problemLines, line.IsPlaced p s selection r := by
  have hmay {r : Report} : p.MayReport vcs selection r ↔ r = Scan.reportOf p s selection :=
    mayReport_iff_of_survey hs
  refine ⟨⟨_, report_scan hs selection, hmay.2 rfl⟩, ?_⟩
  intro r hr
  obtain rfl := hmay.1 hr
  exact ⟨Scan.isUnanimous_reportOf p s selection,
    fun line hline => Scan.isPlaced_of_mem_problemLines hs selection hline⟩

/-- The verdict on one file of a project. -/
theorem verdict_plain :
    let files : List (String × Tree) := [("a.c", .file [120, 10])]
    let p := plain files
    let selection : Selection := .only ["a.c"]
    p.survey (.ok .none) = .ok (plainSurvey files) ∧
      (∃ r, (p.scan (.ok .none) selection).map Scan.report = .ok r ∧
        p.MayReport (.ok .none) selection r) ∧
      ∀ r, p.MayReport (.ok .none) selection r →
        r.IsUnanimous ∧
          ∀ line ∈ r.problemLines, line.IsPlaced p (plainSurvey files) selection r :=
  ⟨survey_plain _ rfl, verdict_of_survey (survey_plain _ rfl) _⟩

end Project

end LicenseAudit
