import LicenseAudit.Proofs.Coverage.Walk
import LicenseAudit.Scan

/-!
# Surveys

A project has a survey exactly when its root is a folder, version control
answers, and its license directory can be read; then the survey says what
these answered (`survey_eq_ok_iff`).

The projects `plain entries` have the simplest survey: no version control, no
license texts and the default settings (`survey_plain`).
-/

namespace LicenseAudit.Project

open Text

variable {p : Project}

/-- The root is in order when it leads to a folder. -/
theorem checkRoot_eq_ok_iff :
    p.checkRoot = .ok () ↔ ∃ entries, p.tree.find p.root = .ok (.folder entries) := by
  rw [checkRoot, Tree.isFolder_eq]
  cases p.tree.find p.root with
  | error o => simp
  | ok u => cases u <;> simp

/-- A survey says what version control, the license directory and the walk
tell about a project whose root is in order. -/
theorem survey_eq_ok_iff {vcs : Except Failure Vcs} {s : Survey} :
    p.survey vcs = .ok s ↔
      (∃ entries, p.tree.find p.root = .ok (.folder entries)) ∧
      (∃ v, vcs = .ok v ∧ v.name = s.vcs ∧ PathFilter.of p.config.coverage v = .ok s.filter) ∧
      Inventory.scan p.tree p.root p.config.licenseDirectory p.catalog = .ok s.inventory ∧
      s.files = .of p.tree p.root s.filter := by
  rw [← checkRoot_eq_ok_iff]
  constructor
  · intro h
    obtain ⟨⟨⟩, hroot, h⟩ := exists_of_bind_eq_ok h
    obtain ⟨v, hv, h⟩ := exists_of_bind_eq_ok h
    obtain ⟨inventory, hinventory, h⟩ := exists_of_bind_eq_ok h
    obtain ⟨filter, hfilter, h⟩ := exists_of_bind_eq_ok h
    obtain rfl := Except.ok.inj h
    exact ⟨hroot, ⟨v, hv, rfl, hfilter⟩, hinventory, rfl⟩
  · obtain ⟨name, inventory, filter, files⟩ := s
    rintro ⟨hroot, ⟨v, rfl, rfl, hfilter⟩, hinventory, hfiles⟩
    dsimp only at hfilter hinventory hfiles
    simp only [survey, hroot, hinventory, hfilter, hfiles, bind, Except.bind, pure, Except.pure]

/-- A project at `/p` with the default settings and a catalog without
licenses. -/
def plain (entries : List (String × Tree)) : Project :=
  { tree := .withProject entries, root := "/p", config := {}, catalog := ⟨[], [], []⟩ }

/-- The survey of such a project, when it has no license texts and is not under
version control. -/
def plainSurvey (entries : List (String × Tree)) : Survey :=
  let filter : PathFilter := ⟨"REUSE.toml", false, ["LICENSES"], []⟩
  ⟨"none", ⟨"LICENSES", []⟩, filter, .of (plain entries).tree "/p" filter⟩

variable (entries : List (String × Tree))

theorem root_plain : (plain entries).root = "/p" := rfl

theorem manifestName_plain : (plain entries).config.manifestName = "REUSE.toml" := rfl

theorem dep5Path_plain : (plain entries).config.dep5Path = ".reuse/dep5" := rfl

/-- Such a project is surveyed when its license directory can be read, with
whatever catalog. -/
theorem survey_of_scan {catalog : Catalog} {inventory : Inventory}
    (h : Inventory.scan (.withProject entries) "/p" "LICENSES" catalog = .ok inventory) :
    ({ plain entries with catalog } : Project).survey (.ok .none) =
      .ok { plainSurvey entries with inventory } := by
  have hnormal : Coverage.normalizeDirectory "LICENSES" = "LICENSES" := by decide +kernel
  have hfilter : PathFilter.of (Config.coverage {}) .none =
      .ok ⟨"REUSE.toml", false, ["LICENSES"], []⟩ := by
    rw [PathFilter.of_none]
    simp only [Config.coverage, hnormal]
  exact survey_eq_ok_iff.2 ⟨⟨entries, Tree.find_withProject entries⟩,
    ⟨.none, rfl, rfl, hfilter⟩, h, rfl⟩

/-- The license directory of a project at `/p`. -/
theorem licenseDirectory_plain :
    Path.resolve "/p" "LICENSES" = "/p/LICENSES" ∧
      Path.relative "/p" "/p/LICENSES" = "LICENSES" := by
  decide +kernel

theorem survey_plain (h : entries.lookup "LICENSES" = none) :
    (plain entries).survey (.ok .none) = .ok (plainSurvey entries) := by
  obtain ⟨hplace, hdirectory⟩ := licenseDirectory_plain
  have hfind : (Tree.withProject entries).find "/p/LICENSES" = .error .missing :=
    Tree.find_absent (show Tree.GoesBy "/p/LICENSES" ["p", "LICENSES"] by decide) h
  have hnames : Inventory.namesIn (Tree.withProject entries) "/p/LICENSES" = .ok [] := by
    simp only [Inventory.namesIn, Tree.list_eq, hfind, if_pos]
  refine survey_of_scan entries ?_
  simp only [Inventory.scan, hplace, hdirectory, hnames, bind, Except.bind]
  simp [Inventory.ofNames, sortedOn, bind, Except.bind, pure, Except.pure]

end LicenseAudit.Project
